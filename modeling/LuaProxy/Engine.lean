import LuaProxy.HookMonad

/-! `lua/engine.rs`: the plugin sources and the four phase loops. A Lua implementation
(`Interpreter`) says what executing a chunk and calling a function do; the loops are generic in it. -/
namespace LuaProxy.Engine
open Text Lua Context HookMonad

structure PluginsConfig where
  dir : String
  pipeline : List String
  deriving DecidableEq, Repr

/-- `sources` maps a plugin's name to its source; `Src` is the text of a Lua file. -/
structure PluginSources (Src : Type) where
  pipeline : List String
  sources : HashMap Src

namespace PluginSources
variable {Src : Type}

/-- `PluginSources::load`: a file that cannot be read is left out with a warning. -/
def load (cfg : PluginsConfig) (readToString : String → Option Src) : PluginSources Src where
  pipeline := cfg.pipeline
  sources := cfg.pipeline.foldl
    (fun sources name =>
      match readToString name with
      | some src => sources.insert name src
      | none => sources) ∅

end PluginSources

structure Interpreter (host : Host) (Src Fn Heap : Type) where
  /-- `load(src)` under the plugin's name, then `exec`. -/
  exec : String → Src → HookM host Fn Heap Unit
  call : Fn → HookM host Fn Heap Value

/-- What the loop found at one plugin, with the runs it made. -/
inductive Found (Fn Heap : Type)
  | absent
  | loadError (chunk : Ran Fn Heap Unit)
  | noHook (chunk : Ran Fn Heap Unit)
  | called (chunk : Ran Fn Heap Unit) (fn : Fn) (hook : Ran Fn Heap Value)

/-- One round of a phase loop, with the VM it started from. -/
structure Visit (Fn Heap : Type) where
  name : String
  before : Vm Fn Heap
  found : Found Fn Heap

/-- A phase as far as it went: `stopped` is what it ended early with. -/
structure PhaseRun (Fn Heap β : Type) where
  visits : List (Visit Fn Heap)
  stopped : Option β
  vm : Vm Fn Heap
  ctx : RequestCtx

section Loop
variable {host : Host} {Src Fn Heap β : Type} (L : Interpreter host Src Fn Heap)

/-- One round of a phase loop: look the source up, execute the chunk, and call the
function the hook's global name is then bound to. -/
def visit (hook : Hook) (sources : HashMap Src) (name : String) (vm : Vm Fn Heap)
    (ctx : RequestCtx) : Found Fn Heap :=
  match sources.lookup name with
  | none => .absent
  | some src =>
    let chunk := L.exec name src vm ctx
    match chunk.result with
    | .error _ => .loadError chunk
    | .ok () =>
      let vm₁ := chunk.vm vm
      match vm₁.global hook with
      | none => .noHook chunk
      | some fn => .called chunk fn (L.call fn vm₁ (CtxCall.runAll host ctx chunk.calls))

/-- The `ctx` calls of a round, in order. -/
def Found.calls : Found Fn Heap → List CtxCall
  | .absent => []
  | .loadError chunk => chunk.calls
  | .noHook chunk => chunk.calls
  | .called chunk _ hook => chunk.calls ++ hook.calls

def Found.vm (vm : Vm Fn Heap) : Found Fn Heap → Vm Fn Heap
  | .absent => vm
  | .loadError chunk => chunk.vm vm
  | .noHook chunk => chunk.vm vm
  | .called chunk _ hook => hook.vm (chunk.vm vm)

/-- What the hook returned or raised, when one was called. -/
def Found.answer : Found Fn Heap → Option (Except LuaError Value)
  | .called _ _ hook => some hook.result
  | _ => none

/-- A phase loop; after each hook call `stop` decides whether the phase ends there. -/
def runHooks (hook : Hook) (stop : Except LuaError Value → RequestCtx → Option β)
    (sources : HashMap Src) : List String → Vm Fn Heap → RequestCtx → PhaseRun Fn Heap β
  | [], vm, ctx => ⟨[], none, vm, ctx⟩
  | name :: names, vm, ctx =>
    let found := visit L hook sources name vm ctx
    let vm' := found.vm vm
    let ctx' := CtxCall.runAll host ctx found.calls
    match found.answer.bind fun r => stop r ctx' with
    | some b => ⟨[⟨name, vm, found⟩], some b, vm', ctx'⟩
    | none =>
      let rest := runHooks hook stop sources names vm' ctx'
      { rest with visits := ⟨name, vm, found⟩ :: rest.visits }

variable (srcs : PluginSources Src) (vm : Vm Fn Heap) (ctx : RequestCtx)

/-- An error of the hook is only logged; the loop ends once the context is rejected. -/
def runOnRequest : PhaseRun Fn Heap Unit :=
  runHooks L .onRequest (fun _ ctx => if ctx.isRejected then some () else none)
    srcs.sources srcs.pipeline vm ctx

/-- The upstream name a hook returned, if the call succeeded with one. -/
def routeAnswer (host : Host) (r : Except LuaError Value) : Option String :=
  match r with
  | .error _ => none
  | .ok v =>
    match toRustOption host v with
    | .ok upstream => upstream
    | .error _ => none

/-- The loop ends at the first upstream name a hook returns. -/
def runOnRoute : PhaseRun Fn Heap String :=
  runHooks L .onRoute (fun r _ => routeAnswer host r) srcs.sources srcs.pipeline vm ctx

/-- The upstream `run_on_route` answers, falling back on `ctx:upstream`. -/
def routeOf (p : PhaseRun Fn Heap String) : Option String :=
  match p.stopped with
  | some name => some name
  | none => p.ctx.getVar "__upstream__"

def runOnTransform : PhaseRun Fn Heap Empty :=
  runHooks L .onTransform (fun _ _ => none) srcs.sources srcs.pipeline vm ctx

def runOnResponse : PhaseRun Fn Heap Empty :=
  runHooks L .onResponse (fun _ _ => none) srcs.sources srcs.pipeline vm ctx

end Loop

section Runs
variable {host : Host} {Src Fn Heap β : Type} (L : Interpreter host Src Fn Heap)
  (hook : Hook) (stop : Except LuaError Value → RequestCtx → Option β) (sources : HashMap Src)

def PhaseRun.calls (p : PhaseRun Fn Heap β) : List CtxCall := p.visits.flatMap fun v => v.found.calls

theorem runHooks_ctx (names : List String) (vm : Vm Fn Heap) (ctx : RequestCtx) :
    (runHooks L hook stop sources names vm ctx).ctx =
      CtxCall.runAll host ctx (runHooks L hook stop sources names vm ctx).calls := by
  induction names generalizing vm ctx with
  | nil => rfl
  | cons name names ih =>
    simp only [runHooks]
    split
    · simp [PhaseRun.calls]
    · simp only [ih]
      simp [PhaseRun.calls, CtxCall.runAll_append]

/-- A phase ends among the earlier plugins, or goes on from where they left it. -/
theorem runHooks_append (as bs : List String) (vm : Vm Fn Heap) (ctx : RequestCtx) :
    let p := runHooks L hook stop sources as vm ctx
    let q := runHooks L hook stop sources bs p.vm p.ctx
    (p.stopped ≠ none ∧ runHooks L hook stop sources (as ++ bs) vm ctx = p) ∨
      (p.stopped = none ∧ runHooks L hook stop sources (as ++ bs) vm ctx =
        { q with visits := p.visits ++ q.visits }) := by
  intro p q
  induction as generalizing vm ctx with
  | nil => exact Or.inr ⟨rfl, rfl⟩
  | cons a as ih =>
    simp only [p, q, List.cons_append, runHooks]
    cases (visit L hook sources a vm ctx).answer.bind fun r =>
        stop r (CtxCall.runAll host ctx (visit L hook sources a vm ctx).calls) with
    | some b => exact Or.inl ⟨by simp, rfl⟩
    | none =>
      rcases ih ((visit L hook sources a vm ctx).vm vm)
        (CtxCall.runAll host ctx (visit L hook sources a vm ctx).calls) with ⟨hs, he⟩ | ⟨hs, he⟩
      · exact Or.inl ⟨hs, by rw [he]⟩
      · exact Or.inr ⟨hs, by rw [he]; rfl⟩

theorem runHooks_names (names : List String) (vm : Vm Fn Heap) (ctx : RequestCtx)
    (h : (runHooks L hook stop sources names vm ctx).stopped = none) :
    (runHooks L hook stop sources names vm ctx).visits.map Visit.name = names := by
  induction names generalizing vm ctx with
  | nil => rfl
  | cons name names ih =>
    simp only [runHooks] at h ⊢
    split at h
    · simp at h
    · simp only [List.map_cons, List.cons.injEq, true_and]
      exact ih _ _ h

theorem runHooks_initial (names : List String) (vm : Vm Fn Heap) (ctx : RequestCtx) :
    (runHooks L hook stop sources names vm ctx).visits.map Visit.name <+: names := by
  induction names generalizing vm ctx with
  | nil => simp [runHooks]
  | cons name names ih =>
    simp only [runHooks]
    split
    · simp
    · simpa using ih _ _

theorem runHooks_stopped (names : List String) (vm : Vm Fn Heap) (ctx : RequestCtx) {b : β}
    (h : (runHooks L hook stop sources names vm ctx).stopped = some b) :
    ∃ r, stop r (runHooks L hook stop sources names vm ctx).ctx = some b := by
  induction names generalizing vm ctx with
  | nil => simp [runHooks] at h
  | cons name names ih =>
    simp only [runHooks] at h ⊢
    split at h
    · rename_i b' hs
      obtain ⟨r, -, hr⟩ := Option.bind_eq_some_iff.mp hs
      exact ⟨r, hr.trans h⟩
    · exact ih _ _ h

/-- The visits follow each other from one VM to another. -/
def Chained : Vm Fn Heap → List (Visit Fn Heap) → Vm Fn Heap → Prop
  | vm, [], vm' => vm' = vm
  | vm, v :: vs, vm' => v.before = vm ∧ Chained (v.found.vm vm) vs vm'

theorem runHooks_chained (names : List String) (vm : Vm Fn Heap) (ctx : RequestCtx) :
    Chained vm (runHooks L hook stop sources names vm ctx).visits
      (runHooks L hook stop sources names vm ctx).vm := by
  induction names generalizing vm ctx with
  | nil => rfl
  | cons name names ih =>
    simp only [runHooks]
    split
    · exact ⟨rfl, rfl⟩
    · exact ⟨rfl, ih _ _⟩

theorem runHooks_visit (names : List String) (vm : Vm Fn Heap) (ctx : RequestCtx) :
    ∀ v ∈ (runHooks L hook stop sources names vm ctx).visits,
      ∃ ctx', v.found = visit L hook sources v.name v.before ctx' := by
  induction names generalizing vm ctx with
  | nil => simp [runHooks]
  | cons name names ih =>
    intro v hv
    simp only [runHooks] at hv
    split at hv
    · obtain rfl := List.mem_singleton.mp hv
      exact ⟨ctx, rfl⟩
    · rcases List.mem_cons.mp hv with rfl | hv
      · exact ⟨ctx, rfl⟩
      · exact ih _ _ v hv

theorem runHooks_findSome (f : Except LuaError Value → Option β) (names : List String)
    (vm : Vm Fn Heap) (ctx : RequestCtx) :
    (runHooks L hook (fun r _ => f r) sources names vm ctx).stopped =
      (runHooks L hook (fun r _ => f r) sources names vm ctx).visits.findSome?
        fun v => v.found.answer.bind f := by
  induction names generalizing vm ctx with
  | nil => rfl
  | cons name names ih =>
    simp only [runHooks]
    split
    · rename_i hs
      simp [hs]
    · rename_i hs
      simp [hs, ih]

end Runs

end LuaProxy.Engine
