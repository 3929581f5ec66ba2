import Mathlib.Order.Basic

/-! Runs of a labelled transition relation, and how what one step preserves carries over to
whole runs. -/
namespace LuaProxy.Transition

variable {σ ε : Type*}

inductive Run (R : σ → ε → σ → Prop) : σ → List ε → σ → Prop
  | nil (s) : Run R s [] s
  | cons {s e s' es s''} : R s e s' → Run R s' es s'' → Run R s (e :: es) s''

variable {R R' : σ → ε → σ → Prop} {s s' s'' : σ} {e : ε} {es es' : List ε}

theorem Run.invariant {I : σ → Prop} (hstep : ∀ s e s', R s e s' → I s → I s')
    (h : Run R s es s') (hs : I s) : I s' := by
  induction h with
  | nil => exact hs
  | cons hr _ ih => exact ih (hstep _ _ _ hr hs)

/-- Each event of one kind uses up what an event of another kind has given. -/
theorem Run.countP_le {f : σ → ℕ} {p q : ε → Bool}
    (hstep : ∀ s e s', R s e s' → f s' + (p e).toNat ≤ f s + (q e).toNat) (h : Run R s es s') :
    f s' + es.countP p ≤ f s + es.countP q := by
  induction h with
  | nil => simp
  | @cons s e s₁ es s₂ hr _ ih =>
    have hfirst := hstep _ _ _ hr
    have hp : (e :: es).countP p = es.countP p + (p e).toNat := by
      rw [List.countP_cons]
      cases p e <;> rfl
    have hq : (e :: es).countP q = es.countP q + (q e).toNat := by
      rw [List.countP_cons]
      cases q e <;> rfl
    omega

/-- One relation may be exchanged for another along a run while an invariant holds. -/
theorem Run.mono {I : σ → Prop} (hstep : ∀ s e s', R s e s' → I s → R' s e s' ∧ I s')
    (h : Run R s es s') (hs : I s) : Run R' s es s' := by
  induction h with
  | nil s => exact .nil s
  | cons hr _ ih =>
    obtain ⟨hr', hi⟩ := hstep _ _ _ hr hs
    exact .cons hr' (ih hi)

/-- Steps of a function that answers whether one is possible, one after the other. -/
def execute (step : σ → ε → Option σ) : σ → List ε → Option σ
  | s, [] => some s
  | s, e :: es => (step s e).bind fun s' => execute step s' es

theorem Run.of_execute {step : σ → ε → Option σ} (h : execute step s es = some s') :
    Run (fun s e s' => step s e = some s') s es s' := by
  induction es generalizing s with
  | nil =>
    obtain rfl := Option.some.inj h
    exact .nil s
  | cons e es ih =>
    obtain ⟨s₁, hs, hrest⟩ := Option.bind_eq_some_iff.mp h
    exact .cons hs (ih hrest)

theorem execute_append (step : σ → ε → Option σ) (s : σ) (es es' : List ε) :
    execute step s (es ++ es') = (execute step s es).bind fun s' => execute step s' es' := by
  induction es generalizing s with
  | nil => rfl
  | cons e es ih =>
    rw [List.cons_append, execute, execute, Option.bind_assoc]
    congr 1
    funext s'
    exact ih s'

theorem execute_snoc (step : σ → ε → Option σ) (s : σ) (es : List ε) (e : ε) :
    execute step s (es ++ [e]) = (execute step s es).bind fun s' => step s' e := by
  rw [execute_append]
  congr 1
  funext s'
  exact Option.bind_fun_some _

theorem execute_prefix {step : σ → ε → Option σ} (h : execute step s es = some s') (hp : es' <+: es) :
    ∃ s'', execute step s es' = some s'' := by
  obtain ⟨rest, rfl⟩ := hp
  rw [execute_append] at h
  obtain ⟨s'', hs, -⟩ := Option.bind_eq_some_iff.mp h
  exact ⟨s'', hs⟩

end LuaProxy.Transition
