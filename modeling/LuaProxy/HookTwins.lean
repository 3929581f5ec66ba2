import LuaProxy.HookSpec

/-! Two runs of hooks side by side, in one context and from VMs whose heaps are related: they
make the same `ctx` calls, end the same way, and leave related heaps. The rules go through
both runs step by step, and through two phases plugin by plugin. -/
namespace LuaProxy.HookTwins
open Lua Context HookMonad Engine HookSpec

section Rules
variable {host : Host} {Fn Heap α β : Type}

def Twins (R : Heap → Heap → Prop) (m m' : HookM host Fn Heap α) : Prop :=
  ∀ vm vm' ctx, R vm.heap vm'.heap →
    (m vm ctx).calls = (m' vm' ctx).calls ∧ (m vm ctx).result = (m' vm' ctx).result ∧
      R (m vm ctx).heap (m' vm' ctx).heap

variable {R : Heap → Heap → Prop}

theorem twins_pure (a : α) : Twins R (pure a : HookM host Fn Heap α) (pure a) :=
  fun _ _ _ h => ⟨rfl, rfl, h⟩

theorem twins_raise (e : LuaError) : Twins R (HookM.raise e : HookM host Fn Heap α) (HookM.raise e) :=
  fun _ _ _ h => ⟨rfl, rfl, h⟩

theorem twins_call (c : CtxCall) : Twins R (HookM.call c : HookM host Fn Heap Unit) (HookM.call c) :=
  fun _ _ _ h => ⟨rfl, rfl, h⟩

theorem twins_read (f : RequestCtx → α) :
    Twins R (HookM.read f : HookM host Fn Heap α) (HookM.read f) := fun _ _ _ h => ⟨rfl, rfl, h⟩

theorem twins_ofExcept (r : Except LuaError α) :
    Twins R (HookM.ofExcept r : HookM host Fn Heap α) (HookM.ofExcept r) := fun _ _ _ h => ⟨rfl, rfl, h⟩

theorem twins_onHeap {f f' : Heap → Except LuaError α × Heap}
    (h : ∀ heap heap', R heap heap' → (f heap).1 = (f' heap').1 ∧ R (f heap).2 (f' heap').2) :
    Twins R (HookM.onHeap f : HookM host Fn Heap α) (HookM.onHeap f') :=
  fun _ _ _ hR => ⟨rfl, h _ _ hR⟩

theorem twins_bind {m m' : HookM host Fn Heap α} {f f' : α → HookM host Fn Heap β}
    (hm : Twins R m m') (hf : ∀ a, Twins R (f a) (f' a)) : Twins R (m >>= f) (m' >>= f') := by
  intro vm vm' ctx hR
  obtain ⟨hcalls, hresult, hheap⟩ := hm vm vm' ctx hR
  simp only [bind, HookM.bind]
  rw [← hresult]
  cases hr : (m vm ctx).result with
  | error e => exact ⟨hcalls, rfl, hheap⟩
  | ok a =>
    rw [← hcalls]
    obtain ⟨hcalls', hresult', hheap'⟩ := hf a ((m vm ctx).vm vm) ((m' vm' ctx).vm vm')
      (CtxCall.runAll host ctx (m vm ctx).calls) hheap
    exact ⟨congrArg (_ ++ ·) hcalls', hresult', hheap'⟩

theorem twins_ite {c : Prop} [Decidable c] {m₁ m₂ m₁' m₂' : HookM host Fn Heap α}
    (h₁ : Twins R m₁ m₁') (h₂ : Twins R m₂ m₂') :
    Twins R (if c then m₁ else m₂) (if c then m₁' else m₂') := by
  split_ifs
  · exact h₁
  · exact h₂

end Rules

section Phase
variable {host : Host} {Src Fn Heap β : Type} (L : Interpreter host Src Fn Heap) {hook : Hook}
  {stop : Except LuaError Value → RequestCtx → Option β} {sources : HashMap Src}
  {R : Heap → Heap → Prop}

def RoundTwins (hook : Hook) (sources : HashMap Src) (R : Heap → Heap → Prop) (name : String) : Prop :=
  ∀ vm vm' ctx, R vm.heap vm'.heap →
    (visit L hook sources name vm ctx).calls = (visit L hook sources name vm' ctx).calls ∧
      (visit L hook sources name vm ctx).answer = (visit L hook sources name vm' ctx).answer ∧
      R ((visit L hook sources name vm ctx).vm vm).heap ((visit L hook sources name vm' ctx).vm vm').heap

/-- The functions a plugin's chunk defines may differ between the two VMs, and be twins for a
closer relation that holds of what the chunk leaves. -/
theorem round_twins {name : String} {src : Src} {kind : Fn → Prop} (hs : sources.lookup name = some src)
    (hd : Defines L hook name src kind)
    (h : ∀ vm vm' ctx fn fn', R vm.heap vm'.heap →
      (L.exec name src vm ctx).assigned hook = some (some fn) →
      (L.exec name src vm' ctx).assigned hook = some (some fn') →
      ∃ S : Heap → Heap → Prop, S (L.exec name src vm ctx).heap (L.exec name src vm' ctx).heap ∧
        (∀ heap heap', S heap heap' → R heap heap') ∧ Twins S (L.call fn) (L.call fn')) :
    RoundTwins L hook sources R name := by
  intro vm vm' ctx hR
  obtain ⟨hcalls, hres, fn, -, hfn⟩ := hd vm ctx
  obtain ⟨hcalls', hres', fn', -, hfn'⟩ := hd vm' ctx
  have hv : visit L hook sources name vm ctx =
      .called (L.exec name src vm ctx) fn (L.call fn ((L.exec name src vm ctx).vm vm) ctx) := by
    simp [visit, hs, hres, Ran.vm, hfn, hcalls]
  have hv' : visit L hook sources name vm' ctx =
      .called (L.exec name src vm' ctx) fn' (L.call fn' ((L.exec name src vm' ctx).vm vm') ctx) := by
    simp [visit, hs, hres', Ran.vm, hfn', hcalls']
  obtain ⟨S, hS, himp, htwins⟩ := h vm vm' ctx fn fn' hR hfn hfn'
  obtain ⟨hc, hr, hheap⟩ := htwins ((L.exec name src vm ctx).vm vm) ((L.exec name src vm' ctx).vm vm')
    ctx hS
  rw [hv, hv']
  refine ⟨?_, congrArg some hr, himp _ _ hheap⟩
  simp only [Found.calls, hcalls, hcalls', hc]

/-- The rounds of a phase: the calls of each plugin, and what its hook returned or raised. -/
def rounds (p : PhaseRun Fn Heap β) : List (String × List CtxCall × Option (Except LuaError Value)) :=
  p.visits.map fun v => (v.name, v.found.calls, v.found.answer)

theorem runHooks_twins {names : List String} (h : ∀ name ∈ names, RoundTwins L hook sources R name)
    {vm vm' : Vm Fn Heap} (hR : R vm.heap vm'.heap) (ctx : RequestCtx) :
    (runHooks L hook stop sources names vm ctx).stopped =
        (runHooks L hook stop sources names vm' ctx).stopped ∧
      rounds (runHooks L hook stop sources names vm ctx) =
        rounds (runHooks L hook stop sources names vm' ctx) ∧
      (runHooks L hook stop sources names vm ctx).ctx =
        (runHooks L hook stop sources names vm' ctx).ctx := by
  induction names generalizing vm vm' ctx with
  | nil => exact ⟨rfl, rfl, rfl⟩
  | cons name names ih =>
    obtain ⟨hcalls, hanswer, hheap⟩ := h name (by simp) vm vm' ctx hR
    obtain ⟨hstopped, hrounds, hctx⟩ := ih (fun n hn => h n (by simp [hn])) hheap
      (CtxCall.runAll host ctx (visit L hook sources name vm ctx).calls)
    simp only [runHooks]
    rw [← hcalls, ← hanswer]
    cases (visit L hook sources name vm ctx).answer.bind fun r =>
        stop r (CtxCall.runAll host ctx (visit L hook sources name vm ctx).calls) with
    | some b => exact ⟨rfl, by simp [rounds, hcalls, hanswer], rfl⟩
    | none =>
      refine ⟨hstopped, ?_, hctx⟩
      simp only [rounds, List.map_cons, hcalls, hanswer] at hrounds ⊢
      rw [hrounds]

end Phase

end LuaProxy.HookTwins
