import LuaProxy.Rejection

/-! What `proxy_requests_total` counts. A request moves the counter of its method once, and
a rejected one moves a second counter of the same metric. -/
namespace LuaProxy.RequestAccounting
open Text Context HookMonad Engine Upstream Handler RequestCourse

section Counters

def count (counters : Counters) (label : String) : ℕ := (counters.lookup label).getD 0

def total (counters : Counters) : ℕ := (counters.entries.map Sigma.snd).sum

theorem count_inc (counters : Counters) (l m : String) :
    count (counters.inc l) m = count counters m + if l = m then 1 else 0 := by
  unfold count Counters.inc
  by_cases h : l = m
  · subst h
    simp
  · have hne : m ≠ l := fun e => h e.symm
    simp [AList.lookup_insert_ne hne, h]

theorem sum_kerase (k : String) (es : List (Sigma fun _ : String => ℕ)) :
    ((es.kerase k).map Sigma.snd).sum + (es.dlookup k).getD 0 = (es.map Sigma.snd).sum := by
  induction es with
  | nil => simp
  | cons e es ih =>
    obtain ⟨k', n⟩ := e
    by_cases h : k = k'
    · subst h
      simp
      omega
    · rw [List.kerase_cons_ne h, List.dlookup_cons_ne _ _ h, List.map_cons, List.map_cons,
        List.sum_cons, List.sum_cons, ← ih]
      omega

theorem total_inc (counters : Counters) (l : String) :
    total (counters.inc l) = total counters + 1 := by
  have hk := sum_kerase l counters.entries
  rw [total, total, Counters.inc, AList.entries_insert, List.map_cons, List.sum_cons, ← hk,
    AList.lookup]
  simp only
  omega

def incAll (counters : Counters) (incs : List String) : Counters := incs.foldl Counters.inc counters

theorem count_incAll (counters : Counters) (incs : List String) (m : String) :
    count (incAll counters incs) m = count counters m + incs.count m := by
  induction incs generalizing counters with
  | nil => simp [incAll]
  | cons l incs ih =>
    have hl := ih (counters.inc l)
    rw [count_inc] at hl
    rw [List.count_cons, incAll, List.foldl_cons]
    simp only [incAll] at hl
    rw [hl]
    by_cases h : l = m
    · simp [h]
      omega
    · simp [h]

theorem total_incAll (counters : Counters) (incs : List String) :
    total (incAll counters incs) = total counters + incs.length := by
  induction incs generalizing counters with
  | nil => simp [incAll]
  | cons l incs ih =>
    have hl := ih (counters.inc l)
    rw [total_inc] at hl
    rw [List.length_cons, incAll, List.foldl_cons]
    simp only [incAll] at hl
    omega

end Counters

section Runs
variable {host : Host} {Src Fn Heap : Type} (L : Interpreter host Src Fn Heap)

/-- A request with all it finds when it is handled. -/
structure Arrival (Src Fn Heap : Type) where
  http : Http
  srcs : Hook → PluginSources Src
  peer : String
  req : Request
  vm : Vm Fn Heap
  pool : UpstreamPool

namespace Arrival
variable (a : Arrival Src Fn Heap)

def handle (counters : Counters) : Handled Fn Heap :=
  handleRequest L a.http a.srcs a.peer a.req a.vm a.pool counters

/-- The body arrived and `on_request` left the context rejected. -/
def Rejected : Prop :=
  ∃ body, a.req.body = .ok body ∧
    (requestPhase L a.srcs a.peer a.req body a.vm).ctx.isRejected = true

instance : Decidable (a.Rejected L) :=
  decidable_of_iff
    ((a.req.body.toOption.any fun body =>
      (requestPhase L a.srcs a.peer a.req body a.vm).ctx.isRejected) = true)
    (by cases h : a.req.body <;> simp [Rejected, Except.toOption, h])

def labels : List String := a.req.method :: if a.Rejected L then ["rejected"] else []

theorem labels_passed (h : ¬ a.Rejected L) : a.labels L = [a.req.method] := by
  rw [labels, if_neg h]

theorem not_rejected {body : Bytes} (hb : a.req.body = .ok body)
    (h : (requestPhase L a.srcs a.peer a.req body a.vm).ctx.rejected = none) : ¬ a.Rejected L := by
  rintro ⟨body', hb', hrej⟩
  rw [hb] at hb'
  obtain rfl := Except.ok.inj hb'
  simp [RequestCtx.isRejected, h] at hrej

/-- On every way out the counter of the method has moved once, and on that of a rejection
the counter `rejected` as well. -/
theorem handle_counters (counters : Counters) :
    (a.handle L counters).counters = incAll counters (a.labels L) := by
  have hpass : ∀ body, a.req.body = .ok body →
      (requestPhase L a.srcs a.peer a.req body a.vm).ctx.rejected = none →
      counters.inc a.req.method = incAll counters (a.labels L) := by
    intro body hb h
    rw [labels_passed L a (not_rejected L a hb h)]
    rfl
  have hcourse : Course L a.http a.srcs a.peer a.req a.vm a.pool counters (a.handle L counters) :=
    handleRequest_course L a.http a.srcs a.peer a.req a.vm a.pool counters
  generalize a.handle L counters = r at hcourse ⊢
  cases hcourse with
  | unread h =>
    have hread : ¬ a.Rejected L := by
      rintro ⟨body, hb, -⟩
      rw [h] at hb
      exact absurd hb (by simp)
    rw [labels_passed L a hread]
    rfl
  | rejected h hrej =>
    have hyes : a.Rejected L := ⟨_, h, by simp [RequestCtx.isRejected, hrej]⟩
    rw [labels, if_pos hyes]
    rfl
  | noTarget h hnone _ => exact hpass _ h hnone
  | unbuilt h _ => exact hpass _ h.arrived h.passed
  | unanswered h _ _ => exact hpass _ h.arrived h.passed
  | unassembled h _ _ _ => exact hpass _ h.arrived h.passed
  | answered h _ _ _ => exact hpass _ h.arrived h.passed

end Arrival

/-- The counters after a run of requests, one after another. -/
def handleAll (run : List (Arrival Src Fn Heap)) : Counters :=
  run.foldl (fun counters a => (a.handle L counters).counters) ∅

/-- Counters that a run can leave when its requests are handled at the same time: the
increments may have come in any order. -/
def Leaves (run : List (Arrival Src Fn Heap)) (counters : Counters) : Prop :=
  ∃ incs, incs.Perm (run.flatMap (Arrival.labels L)) ∧ counters = incAll ∅ incs

theorem handleAll_leaves (run : List (Arrival Src Fn Heap)) : Leaves L run (handleAll L run) := by
  have hrun : ∀ counters : Counters,
      run.foldl (fun counters a => (a.handle L counters).counters) counters =
        incAll counters (run.flatMap (Arrival.labels L)) := by
    induction run with
    | nil => intro counters; rfl
    | cons a run ih =>
      intro counters
      rw [List.foldl_cons, ih, a.handle_counters, List.flatMap_cons, incAll, incAll, incAll,
        List.foldl_append]
  exact ⟨_, List.Perm.refl _, hrun ∅⟩

/-- The metric counts every request once, under its method. -/
structure Accounted (run : List (Arrival Src Fn Heap)) (counters : Counters) : Prop where
  total_eq : total counters = run.length
  method_eq : ∀ method, count counters method = run.countP fun a => a.req.method = method

theorem labels_length (run : List (Arrival Src Fn Heap)) :
    (run.flatMap (Arrival.labels L)).length = run.length + run.countP fun a => a.Rejected L := by
  induction run with
  | nil => rfl
  | cons a run ih =>
    rw [List.flatMap_cons, List.length_append, ih, List.countP_cons, List.length_cons]
    by_cases h : a.Rejected L
    · simp [Arrival.labels, h]
      omega
    · simp [Arrival.labels, h]
      omega

theorem labels_passed {run : List (Arrival Src Fn Heap)} (h : ∀ a ∈ run, ¬ a.Rejected L) :
    run.flatMap (Arrival.labels L) = run.map fun a => a.req.method := by
  induction run with
  | nil => rfl
  | cons a run ih =>
    rw [List.flatMap_cons, a.labels_passed L (h a (by simp)), ih fun b hb => h b (by simp [hb])]
    rfl

theorem leaves_accounted_iff {run : List (Arrival Src Fn Heap)} {counters : Counters}
    (h : Leaves L run counters) : Accounted run counters ↔ ∀ a ∈ run, ¬ a.Rejected L := by
  obtain ⟨incs, hperm, rfl⟩ := h
  constructor
  · intro hacc
    have hlen := hacc.total_eq
    rw [total_incAll, hperm.length_eq, labels_length] at hlen
    have hempty : total ∅ = 0 := rfl
    have hzero : (run.countP fun a => a.Rejected L) = 0 := by omega
    simpa using hzero
  · intro hpass
    rw [labels_passed L hpass] at hperm
    constructor
    · rw [total_incAll, hperm.length_eq, List.length_map]
      exact Nat.zero_add _
    · intro method
      have hempty : count ∅ method = 0 := rfl
      rw [count_incAll, hperm.count_eq, hempty, Nat.zero_add, List.count, List.countP_map]
      congr 1

/-- The accounts are right after exactly the runs in which no request was rejected. -/
theorem accounted_iff (run : List (Arrival Src Fn Heap)) :
    (Accounted run (handleAll L run) ↔ ∀ a ∈ run, ¬ a.Rejected L) ∧
      ∀ counters, Leaves L run counters →
        (Accounted run counters ↔ ∀ a ∈ run, ¬ a.Rejected L) :=
  ⟨leaves_accounted_iff L (handleAll_leaves L run), fun _ h => leaves_accounted_iff L h⟩

end Runs

section Rejected
open Rejection

def refused : Arrival Unit Unit Unit :=
  ⟨emptyAnswer, fun _ => oneSource, "127.0.0.1", FailClosed.plainRequest, noVm, FailClosed.plainPool⟩

/-- A plugin that rejects in `on_response` only leaves the accounts right. -/
theorem late_rejection_accounted :
    Accounted [refused, refused] (handleAll (rejecting .onResponse 403) [refused, refused]) :=
  ((accounted_iff (rejecting .onResponse 403) [refused, refused]).2 _
    (handleAll_leaves _ _)).mpr (by decide)

/-- One rejected request counts as two. -/
theorem rejected_counts_twice :
    ¬ ∀ (host : Host) (Src Fn Heap : Type) (L : Interpreter host Src Fn Heap)
      (run : List (Arrival Src Fn Heap)), Accounted run (handleAll L run) := by
  intro h
  have hacc := h Host.plain Unit Unit Unit (rejecting .onRequest 403) [refused]
  have htwo : total (handleAll (rejecting .onRequest 403) [refused]) = 2 := by decide
  have hone := hacc.total_eq
  rw [htwo] at hone
  exact absurd hone (by decide)

end Rejected

end LuaProxy.RequestAccounting
