import LuaProxy.Refinement

/-! What an observer of a machine is given by its steps, and what it is shown. If a step that
gives the observer nothing changes nothing for it, and steps that give it the same do the same
to it, then runs that give it the same show it the same; and the steps that give it nothing may
as well not be there. -/
namespace LuaProxy.Noninterference
open Transition Refinement

variable {σ ε ι ο : Type*} {step : σ → ε → Option σ} {G : σ → ε → Prop} {given : σ → ε → Option ι}
  {shown : σ → ε → List ο} {alike : σ → σ → Prop} {p : ε → Bool} {s s' t t' : σ} {e : ε} {es es' : List ε}

def inputs (step : σ → ε → Option σ) (given : σ → ε → Option ι) (s : σ) (es : List ε) : List ι :=
  emitted step (fun s e => (given s e).toList) s es

/-- Steps change nothing for the observer but by what they give it. -/
structure Unwinds (step : σ → ε → Option σ) (G : σ → ε → Prop) (given : σ → ε → Option ι)
    (shown : σ → ε → List ο) (alike : σ → σ → Prop) : Prop where
  symm : ∀ s t, alike s t → alike t s
  silent : ∀ s t e s', alike s t → G s e → step s e = some s' → given s e = none →
    alike s' t ∧ shown s e = []
  consistent : ∀ s t e e' s' t' i, alike s t → G s e → step s e = some s' → G t e' →
    step t e' = some t' → given s e = some i → given t e' = some i →
    alike s' t' ∧ shown s e = shown t e'

theorem emitted_cons {δ : Type*} (f : σ → ε → List δ) (hs : step s e = some s') (es : List ε) :
    emitted step f s (e :: es) = f s e ++ emitted step f s' es := by
  rw [emitted, hs, Option.elim_some]

theorem inputs_silent (hs : step s e = some s') (hgiven : given s e = none) (es : List ε) :
    inputs step given s (e :: es) = inputs step given s' es := by
  rw [inputs, emitted_cons _ hs, hgiven]
  rfl

theorem inputs_given {i : ι} (hs : step s e = some s') (hgiven : given s e = some i) (es : List ε) :
    inputs step given s (e :: es) = i :: inputs step given s' es := by
  rw [inputs, emitted_cons _ hs, hgiven]
  rfl

section Runs
variable (h : Unwinds step G given shown alike)
include h

theorem Unwinds.quiet (hrun : Run (fun s e s' => step s e = some s' ∧ G s e) s es s')
    (halike : alike s t) (hnil : inputs step given s es = []) :
    alike s' t ∧ emitted step shown s es = [] := by
  induction hrun with
  | nil s => exact ⟨halike, rfl⟩
  | @cons s e s₁ es s' hs _ ih =>
    obtain ⟨hstep, hG⟩ := hs
    cases hgiven : given s e with
    | some i =>
      rw [inputs_given hstep hgiven] at hnil
      simp at hnil
    | none =>
      rw [inputs_silent hstep hgiven] at hnil
      obtain ⟨halike₁, hshown⟩ := h.silent s t e s₁ halike hG hstep hgiven
      obtain ⟨halike', hrest⟩ := ih halike₁ hnil
      exact ⟨halike', by rw [emitted_cons _ hstep, hshown, hrest, List.append_nil]⟩

theorem Unwinds.first {i : ι} {is : List ι}
    (hrun : Run (fun s e s' => step s e = some s' ∧ G s e) s es s') (halike : alike s t)
    (hcons : inputs step given s es = i :: is) :
    ∃ s₁ e s₂ rest, alike s₁ t ∧ G s₁ e ∧ step s₁ e = some s₂ ∧ given s₁ e = some i ∧
      Run (fun s e s' => step s e = some s' ∧ G s e) s₂ rest s' ∧ inputs step given s₂ rest = is ∧
      emitted step shown s es = shown s₁ e ++ emitted step shown s₂ rest := by
  induction hrun with
  | nil s => simp [inputs, emitted] at hcons
  | @cons s e s₁ es s' hs hrest ih =>
    obtain ⟨hstep, hG⟩ := hs
    cases hgiven : given s e with
    | some j =>
      rw [inputs_given hstep hgiven] at hcons
      obtain ⟨rfl, rfl⟩ := List.cons.inj hcons
      exact ⟨s, e, s₁, es, halike, hG, hstep, hgiven, hrest, rfl, emitted_cons _ hstep es⟩
    | none =>
      rw [inputs_silent hstep hgiven] at hcons
      obtain ⟨halike₁, hshown⟩ := h.silent s t e s₁ halike hG hstep hgiven
      obtain ⟨u, e', u', rest, hu, hG', hstep', hgiven', hrun', hinputs, hemitted⟩ := ih halike₁ hcons
      refine ⟨u, e', u', rest, hu, hG', hstep', hgiven', hrun', hinputs, ?_⟩
      rw [emitted_cons _ hstep, hshown, List.nil_append, hemitted]

/-- Runs that give the observer the same show it the same. -/
theorem Unwinds.runs (hrun : Run (fun s e s' => step s e = some s' ∧ G s e) s es s')
    (hrun' : Run (fun s e s' => step s e = some s' ∧ G s e) t es' t') (halike : alike s t)
    (hsame : inputs step given s es = inputs step given t es') :
    alike s' t' ∧ emitted step shown s es = emitted step shown t es' := by
  induction hrun generalizing t es' with
  | nil s =>
    obtain ⟨halike', hshown⟩ := h.quiet hrun' (h.symm _ _ halike) hsame.symm
    exact ⟨h.symm _ _ halike', hshown.symm⟩
  | @cons s e s₁ es s' hs _ ih =>
    obtain ⟨hstep, hG⟩ := hs
    cases hgiven : given s e with
    | none =>
      rw [inputs_silent hstep hgiven] at hsame
      obtain ⟨halike₁, hshown⟩ := h.silent s t e s₁ halike hG hstep hgiven
      obtain ⟨halike', hrest⟩ := ih hrun' halike₁ hsame
      exact ⟨halike', by rw [emitted_cons _ hstep, hshown, List.nil_append, hrest]⟩
    | some i =>
      rw [inputs_given hstep hgiven] at hsame
      obtain ⟨t₁, e', t₂, rest, ht₁, hG', hstep', hgiven', hrest', hinputs, hemitted⟩ :=
        h.first hrun' (h.symm _ _ halike) hsame.symm
      obtain ⟨halike₂, hshown⟩ := h.consistent s t₁ e e' s₁ t₂ i (h.symm _ _ ht₁) hG hstep hG' hstep'
        hgiven hgiven'
      obtain ⟨halike', hrest⟩ := ih hrest' halike₂ hinputs.symm
      exact ⟨halike', by rw [emitted_cons _ hstep, hshown, hrest, hemitted]⟩

end Runs

/-- The events of one kind, which are all that gives the observer anything, make a run by
themselves, and it shows the same. -/
theorem Unwinds.erase (h : Unwinds step G (fun _ e => if p e then some e else none) shown alike)
    (henabled : ∀ s t e s', alike s t → G s e → p e = true → step s e = some s' →
      ∃ t', step t e = some t' ∧ G t e)
    (hrun : Run (fun s e s' => step s e = some s' ∧ G s e) s es s') (halike : alike s t) :
    ∃ t', execute step t (es.filter p) = some t' ∧ alike s' t' ∧
      emitted step shown s es = emitted step shown t (es.filter p) := by
  induction hrun generalizing t with
  | nil s => exact ⟨t, rfl, halike, rfl⟩
  | @cons s e s₁ es s' hs _ ih =>
    obtain ⟨hstep, hG⟩ := hs
    by_cases hp : p e = true
    · obtain ⟨t₁, ht₁, hG'⟩ := henabled s t e s₁ halike hG hp hstep
      obtain ⟨halike₁, hshown⟩ := h.consistent s t e e s₁ t₁ e halike hG hstep hG' ht₁ (if_pos hp)
        (if_pos hp)
      obtain ⟨t', ht', halike', hrest⟩ := ih halike₁
      refine ⟨t', ?_, halike', ?_⟩
      · rw [List.filter_cons_of_pos hp, execute, ht₁]
        exact ht'
      · rw [List.filter_cons_of_pos hp, emitted_cons _ hstep, emitted_cons _ ht₁, hshown, hrest]
    · obtain ⟨halike₁, hshown⟩ := h.silent s t e s₁ halike hG hstep (if_neg hp)
      obtain ⟨t', ht', halike', hrest⟩ := ih halike₁
      refine ⟨t', ?_, halike', ?_⟩
      · rw [List.filter_cons_of_neg hp]
        exact ht'
      · rw [List.filter_cons_of_neg hp, emitted_cons _ hstep, hshown, List.nil_append, hrest]

end LuaProxy.Noninterference
