import LuaProxy.HookSpec

/-! What a hook does, from any VM: the `ctx` calls it makes, in order, when it returns and
when it raises, the part of the heap it keeps, and that it binds no hook name. The rules
go through a run step by step, and through a phase plugin by plugin. -/
namespace LuaProxy.HookCalls
open Lua Context HookMonad Engine HookSpec

section Rules
variable {host : Host} {Fn Heap α β γ : Type}

/-- From `ctx` the hook makes calls with `post` when it returns and with `err` when it raises. -/
def Makes (keep : Heap → γ) (m : HookM host Fn Heap α) (ctx : RequestCtx)
    (post : α → List CtxCall → Prop) (err : List CtxCall → Prop) : Prop :=
  ∀ vm, (∀ hook, (m vm ctx).assigned hook = none) ∧ keep (m vm ctx).heap = keep vm.heap ∧
    match (m vm ctx).result with
    | .ok a => post a (m vm ctx).calls
    | .error _ => err (m vm ctx).calls

variable {keep : Heap → γ} {ctx : RequestCtx} {post : α → List CtxCall → Prop}
  {err : List CtxCall → Prop}

theorem makes_pure {a : α} (h : post a []) :
    Makes keep (pure a : HookM host Fn Heap α) ctx post err := fun _ => ⟨fun _ => rfl, rfl, h⟩

theorem makes_raise {e : LuaError} (h : err []) :
    Makes keep (HookM.raise e : HookM host Fn Heap α) ctx post err :=
  fun _ => ⟨fun _ => rfl, rfl, h⟩

theorem makes_call {c : CtxCall} {post : Unit → List CtxCall → Prop} (h : post () [c]) :
    Makes keep (HookM.call c : HookM host Fn Heap Unit) ctx post err :=
  fun _ => ⟨fun _ => rfl, rfl, h⟩

theorem makes_read {f : RequestCtx → α} (h : post (f ctx) []) :
    Makes keep (HookM.read f : HookM host Fn Heap α) ctx post err :=
  fun _ => ⟨fun _ => rfl, rfl, h⟩

theorem makes_onHeap {f : Heap → Except LuaError α × Heap} (hk : ∀ heap, keep (f heap).2 = keep heap)
    (h : ∀ heap a, (f heap).1 = .ok a → post a [])
    (he : ∀ heap e, (f heap).1 = .error e → err []) :
    Makes keep (HookM.onHeap f : HookM host Fn Heap α) ctx post err := by
  intro vm
  refine ⟨fun _ => rfl, hk _, ?_⟩
  simp only [HookM.onHeap]
  cases hf : (f vm.heap).1 with
  | ok a => exact h _ a hf
  | error e => exact he _ e hf

theorem makes_ofExcept {r : Except LuaError α} (h : ∀ a, r = .ok a → post a [])
    (he : ∀ e, r = .error e → err []) :
    Makes keep (HookM.ofExcept r : HookM host Fn Heap α) ctx post err := by
  intro vm
  refine ⟨fun _ => rfl, rfl, ?_⟩
  simp only [HookM.ofExcept]
  cases hr : r with
  | ok a => exact h a hr
  | error e => exact he e hr

theorem makes_bind {m : HookM host Fn Heap α} {f : α → HookM host Fn Heap β}
    {post : β → List CtxCall → Prop}
    (h : Makes keep m ctx (fun a cs => Makes keep (f a) (CtxCall.runAll host ctx cs)
      (fun b ds => post b (cs ++ ds)) fun ds => err (cs ++ ds)) err) :
    Makes keep (m >>= f) ctx post err := by
  intro vm
  obtain ⟨hassigned, hkeep, hm⟩ := h vm
  simp only [bind, HookM.bind]
  cases hr : (m vm ctx).result with
  | error e =>
    rw [hr] at hm
    exact ⟨hassigned, hkeep, hm⟩
  | ok a =>
    rw [hr] at hm
    obtain ⟨hassigned', hkeep', hf⟩ := hm ((m vm ctx).vm vm)
    refine ⟨fun hook => ?_, hkeep'.trans hkeep, hf⟩
    dsimp only
    rw [hassigned', hassigned]
    rfl

theorem makes_mono {m : HookM host Fn Heap α} {post' : α → List CtxCall → Prop}
    {err' : List CtxCall → Prop} (h : Makes keep m ctx post err)
    (hp : ∀ a cs, post a cs → post' a cs) (he : ∀ cs, err cs → err' cs) :
    Makes keep m ctx post' err' := by
  intro vm
  obtain ⟨hassigned, hkeep, hm⟩ := h vm
  refine ⟨hassigned, hkeep, ?_⟩
  cases hr : (m vm ctx).result with
  | error e =>
    rw [hr] at hm
    exact he _ hm
  | ok a =>
    rw [hr] at hm
    exact hp _ _ hm

theorem makes_ite {c : Prop} [Decidable c] {m m' : HookM host Fn Heap α}
    (h : c → Makes keep m ctx post err) (h' : ¬ c → Makes keep m' ctx post err) :
    Makes keep (if c then m else m') ctx post err := by
  split_ifs with hc
  · exact h hc
  · exact h' hc

theorem Makes.calls {m : HookM host Fn Heap α} {P : List CtxCall → Prop}
    (h : Makes keep m ctx (fun _ => P) P) (vm : Vm Fn Heap) : P (m vm ctx).calls := by
  obtain ⟨-, -, hm⟩ := h vm
  cases hr : (m vm ctx).result with
  | error e =>
    rw [hr] at hm
    exact hm
  | ok a =>
    rw [hr] at hm
    exact hm

theorem Makes.total {m : HookM host Fn Heap α} {P : List CtxCall → Prop}
    (h : Makes keep m ctx (fun _ => P) fun _ => False) : Makes keep m ctx (fun _ => P) P :=
  makes_mono h (fun _ _ h => h) fun _ h => h.elim

theorem Makes.ensures {m : HookM host Fn Heap α} {P : List CtxCall → Prop} {I : RequestCtx → Prop}
    (h : Makes keep m ctx (fun _ => P) P) (hI : ∀ cs, P cs → I (CtxCall.runAll host ctx cs)) :
    Ensures m ctx (fun _ => I) I := by
  intro vm
  have hcalls := hI _ (h.calls vm)
  cases (m vm ctx).result with
  | ok a => exact hcalls
  | error e => exact hcalls

theorem emits_of_makes {m : HookM host Fn Heap α} {P : RequestCtx → List CtxCall → Prop}
    {Q : CtxCall → Prop} (h : ∀ ctx, Makes keep m ctx (fun _ => P ctx) (P ctx))
    (hQ : ∀ ctx cs, P ctx cs → ∀ c ∈ cs, Q c) : Emits Q m :=
  fun vm ctx => hQ ctx _ ((h ctx).calls vm)

end Rules

section Phase
variable {host : Host} {Src Fn Heap β γ : Type} (L : Interpreter host Src Fn Heap) {hook : Hook}
  {stop : Except LuaError Value → RequestCtx → Option β} {sources : HashMap Src}

theorem runHooks_single (hook : Hook) (stop : Except LuaError Value → RequestCtx → Option β)
    (sources : HashMap Src) (name : String) (vm : Vm Fn Heap) (ctx : RequestCtx) :
    (runHooks L hook stop sources [name] vm ctx).calls = (visit L hook sources name vm ctx).calls ∧
      (runHooks L hook stop sources [name] vm ctx).vm =
        (visit L hook sources name vm ctx).vm vm := by
  simp only [runHooks]
  split <;> simp [PhaseRun.calls]

/-- One round for a plugin that defines the hook, in a phase that is not stopped: the calls
are those of its function, and the phase goes on from where they lead. -/
theorem runHooks_makes {keep : Heap → γ} {name : String} {names : List String} {kind : Fn → Prop}
    {vm : Vm Fn Heap} {ctx : RequestCtx} {P : List CtxCall → Prop} (src : Src)
    (hstop : (runHooks L hook stop sources (name :: names) vm ctx).stopped = none)
    (hs : sources.lookup name = some src) (hd : Defines L hook name src kind)
    (hk : ∀ vm ctx, keep (L.exec name src vm ctx).heap = keep vm.heap)
    (hm : ∀ fn, kind fn → Makes keep (L.call fn) ctx (fun _ => P) P) :
    ∃ vm' cs, P cs ∧ keep vm'.heap = keep vm.heap ∧
      (∀ h, vm'.global h = ((L.exec name src vm ctx).assigned h).getD (vm.global h)) ∧
      (runHooks L hook stop sources names vm' (CtxCall.runAll host ctx cs)).stopped = none ∧
      (runHooks L hook stop sources (name :: names) vm ctx).calls =
        cs ++ (runHooks L hook stop sources names vm' (CtxCall.runAll host ctx cs)).calls ∧
      (runHooks L hook stop sources (name :: names) vm ctx).vm =
        (runHooks L hook stop sources names vm' (CtxCall.runAll host ctx cs)).vm := by
  obtain ⟨hcalls, hres, fn, hkind, hfn⟩ := hd vm ctx
  have hv : visit L hook sources name vm ctx =
      .called (L.exec name src vm ctx) fn (L.call fn ((L.exec name src vm ctx).vm vm) ctx) := by
    simp [visit, hs, hres, Ran.vm, hfn, hcalls]
  obtain ⟨hassigned, hkeep, -⟩ := hm fn hkind ((L.exec name src vm ctx).vm vm)
  have hP := (hm fn hkind).calls ((L.exec name src vm ctx).vm vm)
  refine ⟨(L.call fn ((L.exec name src vm ctx).vm vm) ctx).vm ((L.exec name src vm ctx).vm vm), _,
    hP, hkeep.trans (hk vm ctx), fun h => ?_, ?_⟩
  · change ((L.call fn ((L.exec name src vm ctx).vm vm) ctx).assigned h).getD _ = _
    rw [hassigned]
    rfl
  · simp only [runHooks, hv, Found.calls, hcalls, List.nil_append, Found.vm] at hstop ⊢
    split at hstop
    · simp at hstop
    · exact ⟨hstop, by simp [PhaseRun.calls, Found.calls, hcalls], rfl⟩

/-- A phase whose hook no source defines does nothing to the request. -/
theorem runHooks_idle (hc : ∀ name src vm ctx, (L.exec name src vm ctx).calls = [])
    (ha : ∀ name src vm ctx, (L.exec name src vm ctx).assigned hook = none) (names : List String)
    (vm : Vm Fn Heap) (ctx : RequestCtx) (hvm : vm.global hook = none) :
    (runHooks L hook stop sources names vm ctx).calls = [] := by
  induction names generalizing vm ctx with
  | nil => rfl
  | cons name names ih =>
    have hround : (visit L hook sources name vm ctx).calls = [] ∧
        (visit L hook sources name vm ctx).answer = none ∧
        ((visit L hook sources name vm ctx).vm vm).global hook = none := by
      simp only [visit]
      cases sources.lookup name with
      | none => exact ⟨rfl, rfl, hvm⟩
      | some src =>
        have hglobal : ((L.exec name src vm ctx).vm vm).global hook = none := by
          simp only [Ran.vm, ha, hvm]
          rfl
        dsimp only
        cases (L.exec name src vm ctx).result with
        | error e => exact ⟨hc _ _ _ _, rfl, hglobal⟩
        | ok u =>
          rw [hglobal]
          exact ⟨hc _ _ _ _, rfl, hglobal⟩
    obtain ⟨hcalls, hanswer, hglobal⟩ := hround
    simp only [runHooks, hanswer, Option.bind_none, PhaseRun.calls, List.flatMap_cons, hcalls,
      List.nil_append]
    exact ih _ _ hglobal

theorem runHooks_global {h : Hook} (ha : ∀ name src vm ctx, (L.exec name src vm ctx).assigned h = none)
    (hf : ∀ fn vm ctx, (L.call fn vm ctx).assigned h = none) (names : List String)
    (vm : Vm Fn Heap) (ctx : RequestCtx) :
    (runHooks L hook stop sources names vm ctx).vm.global h = vm.global h := by
  induction names generalizing vm ctx with
  | nil => rfl
  | cons name names ih =>
    have hround : ((visit L hook sources name vm ctx).vm vm).global h = vm.global h := by
      simp only [visit]
      cases sources.lookup name with
      | none => rfl
      | some src =>
        have hchunk : ((L.exec name src vm ctx).vm vm).global h = vm.global h := by
          simp only [Ran.vm, ha]
          rfl
        dsimp only
        cases (L.exec name src vm ctx).result with
        | error e => exact hchunk
        | ok u =>
          dsimp only
          cases ((L.exec name src vm ctx).vm vm).global hook with
          | none => exact hchunk
          | some fn =>
            change ((L.call fn _ _).assigned h).getD _ = _
            rw [hf]
            exact hchunk
    simp only [runHooks]
    split
    · exact hround
    · exact (ih _ _).trans hround

end Phase

end LuaProxy.HookCalls
