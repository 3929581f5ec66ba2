import LuaProxy.Transition

/-! Two machines, and a relation that their steps keep. They take the same events, or each
event of one of them stands for some events of the other. -/
namespace LuaProxy.Refinement
open Transition

section Same

variable {σ τ ε α : Type*} {step : σ → ε → Option σ} {step' : τ → ε → Option τ} {R : σ → τ → Prop}

/-- Both have happened, with results that are related, or neither has. -/
def Matched (R : σ → τ → Prop) (o : Option σ) (o' : Option τ) : Prop :=
  (∀ s, o = some s → ∃ t, o' = some t ∧ R s t) ∧ (o = none → o' = none)

/-- From related states each event is possible in both machines or in neither, and the states
it leads to are related. -/
def Simulates (step : σ → ε → Option σ) (step' : τ → ε → Option τ) (R : σ → τ → Prop) : Prop :=
  ∀ s t e, R s t → Matched R (step s e) (step' t e)

theorem Matched.some {s : σ} {t : τ} (h : R s t) : Matched R (some s) (some t) :=
  ⟨fun _ hs => ⟨t, rfl, Option.some.inj hs ▸ h⟩, fun hs => absurd hs (by simp)⟩

theorem Matched.none : Matched R none none := ⟨fun _ hs => absurd hs (by simp), fun _ => rfl⟩

theorem Simulates.execute (h : Simulates step step' R) {s : σ} {t : τ} (hR : R s t) (es : List ε) :
    Matched R (execute step s es) (execute step' t es) := by
  induction es generalizing s t with
  | nil => exact .some hR
  | cons e es ih =>
    obtain ⟨hsome, hnone⟩ := h s t e hR
    simp only [Transition.execute]
    cases hs : step s e with
    | none =>
      rw [hnone hs]
      exact .none
    | some s' =>
      obtain ⟨t', ht', hR'⟩ := hsome s' hs
      rw [ht']
      exact ih hR'

theorem Matched.view {show₁ : σ → α} {show₂ : τ → α} {o : Option σ} {o' : Option τ} (h : Matched R o o')
    (hshow : ∀ s t, R s t → show₁ s = show₂ t) : o.map show₁ = o'.map show₂ := by
  obtain ⟨hsome, hnone⟩ := h
  cases ho : o with
  | none => rw [hnone ho, Option.map_none, Option.map_none]
  | some s =>
    obtain ⟨t, ht, hR⟩ := hsome s ho
    rw [ht, Option.map_some, Option.map_some, hshow s t hR]

end Same

section Emitting
variable {σ τ ε δ : Type*} {step : σ → ε → Option σ} {step' : τ → δ → Option τ} {emit : σ → ε → List δ}
  {G : σ → ε → Prop} {R : σ → τ → Prop} {s s' : σ} {t : τ} {es es' : List ε}

/-- What the events of a run stand for, each in the state it comes in. -/
def emitted (step : σ → ε → Option σ) (emit : σ → ε → List δ) : σ → List ε → List δ
  | _, [] => []
  | s, e :: es => emit s e ++ (step s e).elim [] fun s' => emitted step emit s' es

theorem emitted_append (h : execute step s es = some s') (es' : List ε) :
    emitted step emit s (es ++ es') = emitted step emit s es ++ emitted step emit s' es' := by
  induction es generalizing s with
  | nil =>
    obtain rfl := Option.some.inj h
    rfl
  | cons e es ih =>
    obtain ⟨s₁, hs, hrest⟩ := Option.bind_eq_some_iff.mp h
    simp only [List.cons_append, emitted, hs, Option.elim_some]
    rw [ih hrest, List.append_assoc]

theorem emitted_prefix (h : execute step s es = some s') (hp : es' <+: es) :
    emitted step emit s es' <+: emitted step emit s es := by
  obtain ⟨s₁, hs⟩ := execute_prefix h hp
  obtain ⟨rest, rfl⟩ := hp
  rw [emitted_append hs]
  exact List.prefix_append _ _

/-- What a step does, the events it stands for do, while every step is as it should be. -/
def Emits (step : σ → ε → Option σ) (G : σ → ε → Prop) (step' : τ → δ → Option τ)
    (emit : σ → ε → List δ) (R : σ → τ → Prop) : Prop :=
  ∀ s t e s', R s t → G s e → step s e = some s' →
    ∃ t', execute step' t (emit s e) = some t' ∧ R s' t'

theorem Emits.run (h : Emits step G step' emit R)
    (hrun : Run (fun s e s' => step s e = some s' ∧ G s e) s es s') (hR : R s t) :
    ∃ t', execute step' t (emitted step emit s es) = some t' ∧ R s' t' := by
  induction hrun generalizing t with
  | nil s => exact ⟨t, rfl, hR⟩
  | cons hs _ ih =>
    obtain ⟨hstep, hG⟩ := hs
    obtain ⟨t₁, ht₁, hR₁⟩ := h _ _ _ _ hR hG hstep
    obtain ⟨t₂, ht₂, hR₂⟩ := ih hR₁
    refine ⟨t₂, ?_, hR₂⟩
    rw [emitted, hstep, execute_append, ht₁]
    exact ht₂

theorem execute_of_run (h : Run (fun s e s' => step s e = some s' ∧ G s e) s es s') :
    execute step s es = some s' := by
  induction h with
  | nil s => rfl
  | cons hs _ ih =>
    rw [execute, hs.1]
    exact ih

theorem run_guarded {Q : σ → ε → σ → Prop} (h : Run Q s es s') (hG : ∀ e ∈ es, ∀ s, G s e) :
    Run (fun s e s' => Q s e s' ∧ G s e) s es s' := by
  induction h with
  | nil s => exact .nil s
  | cons hq _ ih => exact .cons ⟨hq, hG _ List.mem_cons_self _⟩ (ih fun e he => hG e (List.mem_cons_of_mem _ he))

end Emitting

end LuaProxy.Refinement
