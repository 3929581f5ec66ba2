import LuaProxy.Engine

/-! Runs as they go, step by step: the calls, the heap that is left, and the result. -/
namespace LuaProxy.HookRuns
open Lua Context HookMonad Engine

section Rules
variable {host : Host} {Fn Heap α β : Type}

/-- From this VM and context the run makes these calls, leaves this heap and ends so; it binds
no hook name. -/
def Runs (m : HookM host Fn Heap α) (vm : Vm Fn Heap) (ctx : RequestCtx) (calls : List CtxCall)
    (heap : Heap) (result : Except LuaError α) : Prop :=
  m vm ctx = ⟨calls, fun _ => none, heap, result⟩

variable {vm : Vm Fn Heap} {ctx : RequestCtx} {calls calls' : List CtxCall} {heap heap' : Heap}

theorem runs_pure (a : α) :
    Runs (pure a : HookM host Fn Heap α) vm ctx [] vm.heap (.ok a) := rfl

theorem runs_raise (e : LuaError) :
    Runs (HookM.raise e : HookM host Fn Heap α) vm ctx [] vm.heap (.error e) := rfl

theorem runs_call (c : CtxCall) :
    Runs (HookM.call c : HookM host Fn Heap Unit) vm ctx [c] vm.heap (.ok ()) := rfl

theorem runs_bind {m : HookM host Fn Heap α} {f : α → HookM host Fn Heap β} {a : α}
    {result : Except LuaError β} (hm : Runs m vm ctx calls heap (.ok a))
    (hf : Runs (f a) ⟨vm.global, heap⟩ (CtxCall.runAll host ctx calls) calls' heap' result) :
    Runs (m >>= f) vm ctx (calls ++ calls') heap' result := by
  unfold Runs at hm hf ⊢
  simp only [bind, HookM.bind, hm]
  have hvm : Ran.vm ⟨calls, fun _ => none, heap, Except.ok a⟩ vm = ⟨vm.global, heap⟩ := rfl
  rw [hvm, hf]
  rfl

theorem runs_bind_error {m : HookM host Fn Heap α} {f : α → HookM host Fn Heap β} {e : LuaError}
    (hm : Runs m vm ctx calls heap (.error e)) : Runs (m >>= f) vm ctx calls heap (.error e) := by
  unfold Runs at hm ⊢
  simp only [bind, HookM.bind, hm]

theorem runs_silent {m : HookM host Fn Heap α} {f : α → HookM host Fn Heap β} {a : α}
    {result : Except LuaError β} (hm : Runs m vm ctx [] heap (.ok a))
    (hf : Runs (f a) ⟨vm.global, heap⟩ ctx calls heap' result) :
    Runs (m >>= f) vm ctx calls heap' result := by
  have h := runs_bind hm hf
  rwa [List.nil_append] at h

theorem runs_look {m : HookM host Fn Heap α} {f : α → HookM host Fn Heap β} {a : α}
    {result : Except LuaError β} (hm : Runs m vm ctx [] vm.heap (.ok a))
    (hf : Runs (f a) vm ctx calls heap result) : Runs (m >>= f) vm ctx calls heap result :=
  runs_silent hm hf

theorem runs_read {f : RequestCtx → α} {g : α → HookM host Fn Heap β} {result : Except LuaError β}
    (h : Runs (g (f ctx)) vm ctx calls heap result) :
    Runs (HookM.read f >>= g) vm ctx calls heap result := runs_look rfl h

theorem runs_found {f : RequestCtx → α} {g : α → HookM host Fn Heap β} {a : α}
    {result : Except LuaError β} (ha : f ctx = a) (h : Runs (g a) vm ctx calls heap result) :
    Runs (HookM.read f >>= g) vm ctx calls heap result := by
  subst ha
  exact runs_read h

theorem runs_value {r : Except LuaError α} {g : α → HookM host Fn Heap β} {a : α}
    {result : Except LuaError β} (hr : r = .ok a) (h : Runs (g a) vm ctx calls heap result) :
    Runs (HookM.ofExcept r >>= g) vm ctx calls heap result := by
  subst hr
  exact runs_look rfl h

theorem runs_then {c : CtxCall} {g : Unit → HookM host Fn Heap β} {result : Except LuaError β}
    (h : Runs (g ()) vm (CtxCall.run host ctx c) calls heap result) :
    Runs (HookM.call c >>= g) vm ctx (c :: calls) heap result := runs_bind (runs_call c) h

theorem runs_if {c : Prop} [Decidable c] {m m' : HookM host Fn Heap α} {result : Except LuaError α}
    (hc : c) (h : Runs m vm ctx calls heap result) :
    Runs (if c then m else m') vm ctx calls heap result := by
  rwa [if_pos hc]

theorem runs_else {c : Prop} [Decidable c] {m m' : HookM host Fn Heap α} {result : Except LuaError α}
    (hc : ¬ c) (h : Runs m' vm ctx calls heap result) :
    Runs (if c then m else m') vm ctx calls heap result := by
  rwa [if_neg hc]

end Rules

section Phase
variable {host : Host} {Src Fn Heap β : Type} (L : Interpreter host Src Fn Heap) {hook : Hook}
  {stop : Except LuaError Value → RequestCtx → Option β} {sources : HashMap Src}

theorem runHooks_next {name : String} {names : List String} {vm : Vm Fn Heap} {ctx : RequestCtx}
    (hs : ∀ r, stop r (CtxCall.runAll host ctx (visit L hook sources name vm ctx).calls) = none) :
    (runHooks L hook stop sources (name :: names) vm ctx).ctx =
      (runHooks L hook stop sources names ((visit L hook sources name vm ctx).vm vm)
        (CtxCall.runAll host ctx (visit L hook sources name vm ctx).calls)).ctx := by
  have hnone : ((visit L hook sources name vm ctx).answer.bind fun r =>
      stop r (CtxCall.runAll host ctx (visit L hook sources name vm ctx).calls)) = none := by
    cases (visit L hook sources name vm ctx).answer with
    | none => rfl
    | some r => exact hs r
  simp only [runHooks, hnone]

end Phase

end LuaProxy.HookRuns
