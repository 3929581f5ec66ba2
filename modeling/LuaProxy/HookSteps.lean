import LuaProxy.HookTwins

/-! Runs put together step by step. What each step on the heap satisfies carries over to the
whole run: what it keeps of the heap, and that it does the same from related heaps. -/
namespace LuaProxy.HookSteps
open Lua Context HookMonad Engine HookTwins

section Rules
variable {host : Host} {Fn Heap : Type}

/-- A kind of steps on the heap. -/
abbrev Kind (Heap : Type) : Type 1 := ∀ α : Type, (Heap → Except LuaError α × Heap) → Prop

/-- A run whose steps on the heap are of a kind. -/
inductive Built (kind : Kind Heap) : {α : Type} → HookM host Fn Heap α → Prop
  | pure {α : Type} (a : α) : Built kind (pure a : HookM host Fn Heap α)
  | raise {α : Type} (e : LuaError) : Built kind (HookM.raise e : HookM host Fn Heap α)
  | call (c : CtxCall) : Built kind (HookM.call c)
  | read {α : Type} (f : RequestCtx → α) : Built kind (HookM.read f)
  | ofExcept {α : Type} (r : Except LuaError α) : Built kind (HookM.ofExcept r)
  | onHeap {α : Type} {f : Heap → Except LuaError α × Heap} (h : kind α f) :
      Built kind (HookM.onHeap f)
  | bind {α β : Type} {m : HookM host Fn Heap α} {f : α → HookM host Fn Heap β} (hm : Built kind m)
      (hf : ∀ a, Built kind (f a)) : Built kind (m >>= f)

variable {kind : Kind Heap} {α γ : Type}

theorem Built.ite {c : Prop} [Decidable c] {m m' : HookM host Fn Heap α} (h : Built kind m)
    (h' : Built kind m') : Built kind (if c then m else m') := by
  split_ifs
  · exact h
  · exact h'

theorem Built.keeps {m : HookM host Fn Heap α} (h : Built kind m) (keep : Heap → γ)
    (hk : ∀ {α : Type} {f : Heap → Except LuaError α × Heap}, kind α f →
      ∀ heap, keep (f heap).2 = keep heap)
    (vm : Vm Fn Heap) (ctx : RequestCtx) : keep (m vm ctx).heap = keep vm.heap := by
  induction h generalizing vm ctx with
  | onHeap h => exact hk h _
  | @bind α β m f hm hf ihm ihf =>
    simp only [Bind.bind, HookM.bind]
    cases (m vm ctx).result with
    | error e => exact ihm vm ctx
    | ok a => exact (ihf a _ _).trans (ihm vm ctx)
  | _ => rfl

theorem Built.twins {m : HookM host Fn Heap α} {R : Heap → Heap → Prop} (h : Built kind m)
    (hk : ∀ {α : Type} {f : Heap → Except LuaError α × Heap}, kind α f →
      ∀ heap heap', R heap heap' → (f heap).1 = (f heap').1 ∧ R (f heap).2 (f heap').2) :
    Twins R m m := by
  induction h with
  | pure a => exact twins_pure a
  | raise e => exact twins_raise e
  | call c => exact twins_call c
  | read f => exact twins_read f
  | ofExcept r => exact twins_ofExcept r
  | onHeap h => exact twins_onHeap (hk h)
  | bind _ _ ihm ihf => exact twins_bind ihm ihf

end Rules

section Phase
variable {host : Host} {Src Fn Heap β : Type} (L : Interpreter host Src Fn Heap) {hook : Hook}
  {stop : Except LuaError Value → RequestCtx → Option β} {sources : HashMap Src}
  {R : Heap → Heap → Prop}

theorem visit_heap (hrefl : ∀ heap, R heap heap) (htrans : ∀ a b c, R a b → R b c → R a c)
    {name : String} (he : ∀ src, sources.lookup name = some src →
      ∀ vm ctx, R vm.heap (L.exec name src vm ctx).heap)
    (hc : ∀ src, sources.lookup name = some src → ∀ (vm : Vm Fn Heap) ctx fn,
      ((L.exec name src vm ctx).vm vm).global hook = some fn →
        ∀ vm ctx, R vm.heap (L.call fn vm ctx).heap) (vm : Vm Fn Heap) (ctx : RequestCtx) :
    R vm.heap ((visit L hook sources name vm ctx).vm vm).heap := by
  unfold visit
  cases hs : sources.lookup name with
  | none => exact hrefl _
  | some src =>
    have hchunk := he src hs vm ctx
    dsimp only
    cases (L.exec name src vm ctx).result with
    | error e => exact hchunk
    | ok u =>
      dsimp only
      cases hfn : ((L.exec name src vm ctx).vm vm).global hook with
      | none => exact hchunk
      | some fn => exact htrans _ _ _ hchunk (hc src hs vm ctx fn hfn ((L.exec name src vm ctx).vm vm) _)

/-- What every round of a phase does to the heap, the phase does. -/
theorem runHooks_heap (hrefl : ∀ heap, R heap heap) (htrans : ∀ a b c, R a b → R b c → R a c)
    {names : List String} (h : ∀ name ∈ names, ∀ (vm : Vm Fn Heap) ctx,
      R vm.heap ((visit L hook sources name vm ctx).vm vm).heap) (vm : Vm Fn Heap) (ctx : RequestCtx) :
    R vm.heap (runHooks L hook stop sources names vm ctx).vm.heap := by
  induction names generalizing vm ctx with
  | nil => exact hrefl _
  | cons name names ih =>
    have hround := h name (by simp) vm ctx
    simp only [runHooks]
    split
    · exact hround
    · exact htrans _ _ _ hround (ih (fun name' hname => h name' (by simp [hname])) _ _)

theorem runHooks_first (stop : Except LuaError Value → RequestCtx → Option β) (name : String)
    (hrefl : ∀ heap, R heap heap) (htrans : ∀ a b c, R a b → R b c → R a c) {names : List String} (h : ∀ name ∈ names, ∀ (vm : Vm Fn Heap) ctx,
      R vm.heap ((visit L hook sources name vm ctx).vm vm).heap) (vm : Vm Fn Heap) (ctx : RequestCtx) :
    R ((visit L hook sources name vm ctx).vm vm).heap
      (runHooks L hook stop sources (name :: names) vm ctx).vm.heap := by
  simp only [runHooks]
  split
  · exact hrefl _
  · exact runHooks_heap L hrefl htrans h _ _

theorem runHooks_silent {name : String} {names : List String} {vm : Vm Fn Heap} {ctx : RequestCtx}
    (hc : (visit L hook sources name vm ctx).calls = []) (hs : ∀ r, stop r ctx = none) :
    (runHooks L hook stop sources (name :: names) vm ctx).vm =
      (runHooks L hook stop sources names ((visit L hook sources name vm ctx).vm vm) ctx).vm := by
  have hnone : ((visit L hook sources name vm ctx).answer.bind fun r => stop r ctx) = none := by
    cases (visit L hook sources name vm ctx).answer with
    | none => rfl
    | some r => exact hs r
  simp only [runHooks, hc, CtxCall.runAll_nil, hnone]

end Phase

end LuaProxy.HookSteps
