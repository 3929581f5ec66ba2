import LuaProxy.Engine

/-! Whose hook a phase calls. All chunks of a connection execute in one global table
that is never cleared, so a plugin without a hook of its own is called through whatever
function an earlier chunk left under the hook's name. -/
namespace LuaProxy.HookDispatch
open Text Lua Context HookMonad Engine

section History
variable {host : Host} {Src Fn Heap : Type} (L : Interpreter host Src Fn Heap)

/-- A phase with only the fact that it ended early, not what with. -/
def ofRun {β : Type} (p : PhaseRun Fn Heap β) : PhaseRun Fn Heap Unit :=
  { p with stopped := p.stopped.map fun _ => () }

/-- `run_on_H` for each hook. -/
def runPhase (hook : Hook) (srcs : PluginSources Src) (vm : Vm Fn Heap) (ctx : RequestCtx) :
    PhaseRun Fn Heap Unit :=
  match hook with
  | .onRequest => ofRun (runOnRequest L srcs vm ctx)
  | .onRoute => ofRun (runOnRoute L srcs vm ctx)
  | .onTransform => ofRun (runOnTransform L srcs vm ctx)
  | .onResponse => ofRun (runOnResponse L srcs vm ctx)

/-- One phase of a request on a connection: its sources and context are those it finds. -/
structure Phase (Src : Type) where
  hook : Hook
  srcs : PluginSources Src
  ctx : RequestCtx

/-- All visits of a connection, over all its phases and requests, with their phase. -/
def runHistory : List (Phase Src) → Vm Fn Heap → List (Hook × Visit Fn Heap)
  | [], _ => []
  | p :: ps, vm =>
    let r := runPhase L p.hook p.srcs vm p.ctx
    r.visits.map (p.hook, ·) ++ runHistory ps r.vm

def fresh (heap : Heap) : Vm Fn Heap := ⟨fun _ => none, heap⟩

def called (v : Visit Fn Heap) : Option Fn :=
  match v.found with
  | .called _ fn _ => some fn
  | _ => none

def own (hook : Hook) (v : Visit Fn Heap) : Option Fn :=
  match v.found with
  | .noHook chunk => (chunk.assigned hook).join
  | .called chunk _ _ => (chunk.assigned hook).join
  | _ => none

/-- The plugin was executed and its chunk says nothing about the hook's name. -/
def leaves (hook : Hook) (v : Visit Fn Heap) : Prop :=
  match v.found with
  | .noHook chunk => chunk.assigned hook = none
  | .called chunk _ _ => chunk.assigned hook = none
  | _ => False

/-- What a visit did to a hook's name, its chunk first and its hook call after. -/
def binds (hook : Hook) (v : Visit Fn Heap) : Option (Option Fn) :=
  match v.found with
  | .absent => none
  | .loadError chunk => chunk.assigned hook
  | .noHook chunk => chunk.assigned hook
  | .called chunk _ h => (h.assigned hook).or (chunk.assigned hook)

/-- What a hook's name is bound to after some visits on a new connection: the latest
visit that touched the name decides. -/
def boundBy (hook : Hook) (vs : List (Visit Fn Heap)) : Option Fn :=
  vs.foldl (fun bound v => (binds hook v).getD bound) none

theorem vm_global (v : Visit Fn Heap) (vm : Vm Fn Heap) (hook : Hook) :
    (v.found.vm vm).global hook = (binds hook v).getD (vm.global hook) := by
  unfold binds
  cases v.found with
  | absent => rfl
  | loadError chunk => rfl
  | noHook chunk => rfl
  | called chunk fn h =>
    simp only [Found.vm, Ran.vm]
    cases h.assigned hook <;> simp

theorem chained_append {vm vm₁ vm₂ : Vm Fn Heap} {vs ws : List (Visit Fn Heap)}
    (hv : Chained vm vs vm₁) (hw : Chained vm₁ ws vm₂) : Chained vm (vs ++ ws) vm₂ := by
  induction vs generalizing vm with
  | nil =>
    obtain rfl : vm₁ = vm := hv
    exact hw
  | cons v vs ih => exact ⟨hv.1, ih hv.2⟩

theorem runPhase_eq (hook : Hook) (srcs : PluginSources Src) (vm : Vm Fn Heap)
    (ctx : RequestCtx) :
    ∃ (β : Type) (stop : Except LuaError Value → RequestCtx → Option β),
      runPhase L hook srcs vm ctx =
        ofRun (runHooks L hook stop srcs.sources srcs.pipeline vm ctx) := by
  cases hook
  case onRequest => exact ⟨Unit, _, rfl⟩
  case onRoute => exact ⟨String, _, rfl⟩
  case onTransform => exact ⟨Empty, _, rfl⟩
  case onResponse => exact ⟨Empty, _, rfl⟩

theorem runPhase_chained (hook : Hook) (srcs : PluginSources Src) (vm : Vm Fn Heap)
    (ctx : RequestCtx) :
    Chained vm (runPhase L hook srcs vm ctx).visits (runPhase L hook srcs vm ctx).vm := by
  obtain ⟨β, stop, h⟩ := runPhase_eq L hook srcs vm ctx
  rw [h]
  exact runHooks_chained L hook stop srcs.sources srcs.pipeline vm ctx

theorem runPhase_visit (hook : Hook) (srcs : PluginSources Src) (vm : Vm Fn Heap)
    (ctx : RequestCtx) :
    ∀ v ∈ (runPhase L hook srcs vm ctx).visits,
      ∃ ctx', v.found = visit L hook srcs.sources v.name v.before ctx' := by
  obtain ⟨β, stop, h⟩ := runPhase_eq L hook srcs vm ctx
  rw [h]
  exact runHooks_visit L hook stop srcs.sources srcs.pipeline vm ctx

theorem runPhase_names (hook : Hook) (srcs : PluginSources Src) (vm : Vm Fn Heap)
    (ctx : RequestCtx) :
    (runPhase L hook srcs vm ctx).visits.map Visit.name <+: srcs.pipeline ∧
      ((runPhase L hook srcs vm ctx).stopped = none →
        (runPhase L hook srcs vm ctx).visits.map Visit.name = srcs.pipeline) := by
  obtain ⟨β, stop, h⟩ := runPhase_eq L hook srcs vm ctx
  rw [h]
  refine ⟨runHooks_initial L hook stop srcs.sources srcs.pipeline vm ctx, fun hs => ?_⟩
  exact runHooks_names L hook stop srcs.sources srcs.pipeline vm ctx (Option.map_eq_none_iff.mp hs)

theorem runHistory_chained (ps : List (Phase Src)) (vm : Vm Fn Heap) :
    ∃ vm', Chained vm ((runHistory L ps vm).map Prod.snd) vm' := by
  induction ps generalizing vm with
  | nil => exact ⟨vm, rfl⟩
  | cons p ps ih =>
    obtain ⟨vm', h⟩ := ih (runPhase L p.hook p.srcs vm p.ctx).vm
    refine ⟨vm', ?_⟩
    simp only [runHistory, List.map_append, List.map_map, Function.comp_def, List.map_id']
    exact chained_append (runPhase_chained L _ _ _ _) h

theorem runHistory_visit (ps : List (Phase Src)) (vm : Vm Fn Heap) :
    ∀ e ∈ runHistory L ps vm,
      ∃ sources ctx, e.2.found = visit L e.1 sources e.2.name e.2.before ctx := by
  induction ps generalizing vm with
  | nil => simp [runHistory]
  | cons p ps ih =>
    intro e he
    rcases List.mem_append.mp he with he | he
    · obtain ⟨v, hv, rfl⟩ := List.mem_map.mp he
      obtain ⟨ctx, h⟩ := runPhase_visit L _ _ _ _ v hv
      exact ⟨p.srcs.sources, ctx, h⟩
    · exact ih _ e he

/-- The table is never cleared: a visit starts from the latest binding there has been. -/
theorem chained_global {vm vm' : Vm Fn Heap} {vs : List (Visit Fn Heap)} (h : Chained vm vs vm')
    {i : ℕ} {v : Visit Fn Heap} (hv : vs[i]? = some v) (hook : Hook) :
    v.before.global hook =
      (vs.take i).foldl (fun bound v => (binds hook v).getD bound) (vm.global hook) := by
  induction vs generalizing vm i with
  | nil => simp at hv
  | cons w ws ih =>
    cases i with
    | zero =>
      obtain rfl : w = v := by simpa using hv
      simp [h.1]
    | succ i =>
      have hg := vm_global w vm hook
      rw [ih h.2 (by simpa using hv), hg, List.take_succ_cons, List.foldl_cons]

theorem history_global (ps : List (Phase Src)) (heap : Heap) {i : ℕ} {e : Hook × Visit Fn Heap}
    (he : (runHistory L ps (fresh heap))[i]? = some e) :
    e.2.before.global e.1 = boundBy e.1 (((runHistory L ps (fresh heap)).take i).map Prod.snd) := by
  obtain ⟨vm', hc⟩ := runHistory_chained L ps (fresh heap)
  have hv : ((runHistory L ps (fresh heap)).map Prod.snd)[i]? = some e.2 := by
    rw [List.getElem?_map, he]
    rfl
  rw [List.map_take]
  exact chained_global hc hv e.1

/-- A round calls the plugin's own hook exactly if its chunk defines the name or clears it,
or finds it unbound. -/
theorem called_eq_own (hook : Hook) (sources : HashMap Src) (v : Visit Fn Heap)
    (ctx : RequestCtx) (h : v.found = visit L hook sources v.name v.before ctx) :
    called v = own hook v ↔ (leaves hook v → v.before.global hook = none) := by
  unfold called own leaves
  simp only [visit] at h
  cases hs : sources.lookup v.name with
  | none => simp [h, hs]
  | some src =>
    simp only [hs] at h
    generalize L.exec v.name src v.before ctx = chunk at h
    cases hr : chunk.result with
    | error e => simp [h, hr]
    | ok u =>
      simp only [hr, Ran.vm] at h
      cases ha : chunk.assigned hook with
      | none =>
        simp only [ha, Option.getD_none] at h
        cases hg : v.before.global hook <;> simp [h, hg, ha]
      | some bound =>
        simp only [ha, Option.getD_some] at h
        cases bound <;> simp [h, ha]

theorem findSome_congr {α β : Type} {f g : α → Option β} {l : List α}
    (h : ∀ a ∈ l, f a = g a) : l.findSome? f = l.findSome? g := by
  induction l with
  | nil => rfl
  | cons a l ih =>
    rw [List.findSome?_cons, List.findSome?_cons, h a (by simp), ih fun b hb => h b (by simp [hb])]

/-- Every phase calls exactly the hooks of the plugins it visits: the visits are the
pipeline in order up to where the phase ended, and each visit calls the plugin's own hook,
or nothing when its source defines none. -/
def OwnHooks (ps : List (Phase Src)) (heap : Heap) : Prop :=
  (runHistory L ps (fresh heap)).map (fun e => called e.2) =
    (runHistory L ps (fresh heap)).map fun e => own e.1 e.2

/-- Every hook call of a connection is the visited plugin's own hook exactly when no plugin
that leaves the hook's name alone is visited while an earlier run on the connection has left
it bound. On `on_route` the answer is then the first in pipeline order among the plugins that
define the hook. -/
theorem own_hooks_iff (ps : List (Phase Src)) (heap : Heap) :
    (OwnHooks L ps heap ↔
      ∀ i e, (runHistory L ps (fresh heap))[i]? = some e → leaves e.1 e.2 →
        boundBy e.1 (((runHistory L ps (fresh heap)).take i).map Prod.snd) = none) ∧
    (∀ (hook : Hook) (srcs : PluginSources Src) (vm : Vm Fn Heap) (ctx : RequestCtx),
      (runPhase L hook srcs vm ctx).visits.map Visit.name <+: srcs.pipeline ∧
        ((runPhase L hook srcs vm ctx).stopped = none →
          (runPhase L hook srcs vm ctx).visits.map Visit.name = srcs.pipeline)) ∧
    ∀ (srcs : PluginSources Src) (vm : Vm Fn Heap) (ctx : RequestCtx),
      let p := runOnRoute L srcs vm ctx
      (∀ v ∈ p.visits, called v = own .onRoute v) →
        p.stopped = p.visits.findSome? fun v =>
          if (own .onRoute v).isSome then v.found.answer.bind (routeAnswer host) else none := by
  refine ⟨?_, runPhase_names L, ?_⟩
  · rw [OwnHooks, List.map_inj_left]
    constructor
    · intro h i e he hl
      have hm := List.mem_of_getElem? he
      obtain ⟨sources, ctx, hv⟩ := runHistory_visit L ps (fresh heap) e hm
      rw [← history_global L ps heap he]
      exact (called_eq_own L e.1 sources e.2 ctx hv).mp (h e hm) hl
    · intro h e hm
      obtain ⟨i, he⟩ := List.mem_iff_getElem?.mp hm
      obtain ⟨sources, ctx, hv⟩ := runHistory_visit L ps (fresh heap) e hm
      refine (called_eq_own L e.1 sources e.2 ctx hv).mpr fun hl => ?_
      rw [history_global L ps heap he]
      exact h i e he hl
  · intro srcs vm ctx p hown
    have hf := runHooks_findSome L .onRoute srcs.sources (routeAnswer host) srcs.pipeline vm ctx
    refine Eq.trans hf (findSome_congr fun v hv => ?_)
    have hv := hown v hv
    unfold called at hv
    cases hfound : v.found with
    | called chunk fn hook =>
      rw [hfound] at hv
      simp [← hv]
    | _ => simp [Found.answer]

end History

section Stale

/-- Two plugins: one has `on_request` only, the other `on_request` and `on_response`. -/
inductive TwoSrc
  | ipFilter
  | transform

def twoPlugins : Interpreter Host.plain TwoSrc String Unit where
  exec _ src :=
    match src with
    | .ipFilter => HookM.define .onRequest "ip_filter on_request"
    | .transform => do
      HookM.define .onRequest "transform on_request"
      HookM.define .onResponse "transform on_response"
  call _ := pure .nil

def twoSources : PluginSources TwoSrc where
  pipeline := ["ip_filter.lua", "transform.lua"]
  sources := (AList.insert "ip_filter.lua" .ipFilter ∅).insert "transform.lua" .transform

def twoCtx : RequestCtx := RequestCtx.new "GET" "/" ∅ "" "127.0.0.1"

/-- On the first request already, `on_response` of the second plugin runs twice: once in
the place of the first plugin, which has none. -/
theorem response_hook_runs_twice :
    (runHistory twoPlugins [⟨.onRequest, twoSources, twoCtx⟩, ⟨.onResponse, twoSources, twoCtx⟩]
        (fresh ())).map (fun e => (e.1, e.2.name, called e.2)) =
      [(.onRequest, "ip_filter.lua", some "ip_filter on_request"),
        (.onRequest, "transform.lua", some "transform on_request"),
        (.onResponse, "ip_filter.lua", some "transform on_response"),
        (.onResponse, "transform.lua", some "transform on_response")] ∧
      ¬ OwnHooks twoPlugins [⟨.onRequest, twoSources, twoCtx⟩, ⟨.onResponse, twoSources, twoCtx⟩]
        () := by
  constructor
  · decide
  · unfold OwnHooks
    decide

end Stale

end LuaProxy.HookDispatch
