import LuaProxy.Engine

/-! Pre- and postconditions of Lua runs: what a run leaves in the request context when it
returns and when it raises, whatever the VM was, and what its calls satisfy. The rules go
through a phase plugin by plugin. -/
namespace LuaProxy.HookSpec
open Lua Context HookMonad Engine

section Rules
variable {host : Host} {Fn Heap α β : Type}

/-- From `ctx` the run leaves a context with `post` when it returns, and with `err` when
it raises. -/
def Ensures (m : HookM host Fn Heap α) (ctx : RequestCtx) (post : α → RequestCtx → Prop)
    (err : RequestCtx → Prop) : Prop :=
  ∀ vm, match (m vm ctx).result with
    | .ok a => post a (CtxCall.runAll host ctx (m vm ctx).calls)
    | .error _ => err (CtxCall.runAll host ctx (m vm ctx).calls)

end Rules

section Emits
variable {host : Host} {Fn Heap α β : Type} {P : CtxCall → Prop}

/-- Every `ctx` call the run makes, from any state, satisfies `P`. -/
def Emits (P : CtxCall → Prop) (m : HookM host Fn Heap α) : Prop :=
  ∀ vm ctx, ∀ c ∈ (m vm ctx).calls, P c

end Emits

section Phase
variable {host : Host} {Src Fn Heap β : Type} (L : Interpreter host Src Fn Heap) {hook : Hook}
  {stop : Except LuaError Value → RequestCtx → Option β} {sources : HashMap Src}

/-- The chunk touches no context, succeeds and defines the hook with a function of a kind. -/
def Defines (hook : Hook) (name : String) (src : Src) (kind : Fn → Prop) : Prop :=
  ∀ vm ctx, (L.exec name src vm ctx).calls = [] ∧ (L.exec name src vm ctx).result = .ok () ∧
    ∃ fn, kind fn ∧ (L.exec name src vm ctx).assigned hook = some (some fn)

theorem visit_ensures {name : String} {src : Src} {kind : Fn → Prop} {ctx : RequestCtx}
    {post : RequestCtx → Prop} (hs : sources.lookup name = some src)
    (hd : Defines L hook name src kind)
    (hc : ∀ fn, kind fn → Ensures (L.call fn) ctx (fun _ => post) post) (vm : Vm Fn Heap) :
    post (CtxCall.runAll host ctx (visit L hook sources name vm ctx).calls) := by
  obtain ⟨hcalls, hres, fn, hk, hfn⟩ := hd vm ctx
  have hpost := hc fn hk ((L.exec name src vm ctx).vm vm)
  have hv : visit L hook sources name vm ctx =
      .called (L.exec name src vm ctx) fn (L.call fn ((L.exec name src vm ctx).vm vm) ctx) := by
    simp [visit, hs, hres, Ran.vm, hfn, hcalls]
  rw [hv]
  simp only [Found.calls, hcalls, List.nil_append]
  cases hr : (L.call fn ((L.exec name src vm ctx).vm vm) ctx).result with
  | ok a =>
    rw [hr] at hpost
    exact hpost
  | error e =>
    rw [hr] at hpost
    exact hpost

theorem runHooks_round {name : String} {names : List String} {kind : Fn → Prop}
    {vm : Vm Fn Heap} {ctx : RequestCtx} {post : RequestCtx → Prop} (src : Src)
    (h : (runHooks L hook stop sources (name :: names) vm ctx).stopped = none)
    (hs : sources.lookup name = some src) (hd : Defines L hook name src kind)
    (hc : ∀ fn, kind fn → Ensures (L.call fn) ctx (fun _ => post) post) :
    ∃ vm' ctx', post ctx' ∧ (runHooks L hook stop sources names vm' ctx').stopped = none ∧
      (runHooks L hook stop sources (name :: names) vm ctx).ctx =
        (runHooks L hook stop sources names vm' ctx').ctx := by
  have hpost := visit_ensures L hs hd hc vm
  refine ⟨(visit L hook sources name vm ctx).vm vm, _, hpost, ?_⟩
  simp only [runHooks] at h ⊢
  split at h
  · simp at h
  · exact ⟨h, rfl⟩

theorem visit_emits {name : String} {kind : Fn → Prop} {P : CtxCall → Prop} (src : Src)
    (hs : sources.lookup name = some src) (hd : Defines L hook name src kind)
    (hc : ∀ fn, kind fn → Emits P (L.call fn)) (vm : Vm Fn Heap) (ctx : RequestCtx) :
    ∀ c ∈ (visit L hook sources name vm ctx).calls, P c := by
  obtain ⟨hcalls, hres, fn, hk, hfn⟩ := hd vm ctx
  have hv : visit L hook sources name vm ctx =
      .called (L.exec name src vm ctx) fn (L.call fn ((L.exec name src vm ctx).vm vm) ctx) := by
    simp [visit, hs, hres, Ran.vm, hfn, hcalls]
  rw [hv]
  simp only [Found.calls, hcalls, List.nil_append]
  exact hc fn hk _ _

theorem runHooks_cons_calls {name : String} {names : List String} {P : CtxCall → Prop}
    {vm : Vm Fn Heap} {ctx : RequestCtx}
    (hfirst : ∀ c ∈ (visit L hook sources name vm ctx).calls, P c)
    (hrest : ∀ c ∈ (runHooks L hook stop sources names
      ((visit L hook sources name vm ctx).vm vm)
      (CtxCall.runAll host ctx (visit L hook sources name vm ctx).calls)).calls, P c) :
    ∀ c ∈ (runHooks L hook stop sources (name :: names) vm ctx).calls, P c := by
  intro c hc
  simp only [runHooks] at hc
  split at hc
  · simp only [PhaseRun.calls, List.flatMap_cons, List.flatMap_nil, List.append_nil] at hc
    exact hfirst c hc
  · simp only [PhaseRun.calls, List.flatMap_cons, List.mem_append] at hc
    rcases hc with hc | hc
    · exact hfirst c hc
    · exact hrest c hc

end Phase

end LuaProxy.HookSpec
