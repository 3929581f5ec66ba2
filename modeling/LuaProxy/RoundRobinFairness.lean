import LuaProxy.Selection
import LuaProxy.Transition
import Mathlib.Data.Int.CardIntervalMod

/-! Concurrent calls of `RoundRobin::next`. A call first collects the alive targets and then
draws a ticket from the shared counter; other calls come in between. -/
namespace LuaProxy.RoundRobinFairness
open Text Context Upstream Positions Selection Transition

section Windows

/-- In a window of numbers every remainder comes up equally often, give or take one. -/
theorem count_window {n r : ℕ} (hr : r < n) (c m : ℕ) :
    Nat.count (fun k => (c + k) % n = r) m = m / n ∨
      Nat.count (fun k => (c + k) % n = r) m = (m + n - 1) / n := by
  have hn : 0 < n := by omega
  have hadd := Nat.count_add (fun k => k ≡ r [MOD n]) c m
  have hwindow : (fun k => c + k ≡ r [MOD n]) = fun k => (c + k) % n = r := by
    funext k
    rw [Nat.ModEq, Nat.mod_eq_of_lt hr]
  simp only [hwindow] at hadd
  generalize Nat.count (fun k => (c + k) % n = r) m = w at hadd ⊢
  simp only [Nat.count_modEq_card _ hn, Nat.mod_eq_of_lt hr, Nat.add_div hn,
    Nat.add_mod_eq_ite] at hadd
  have hceil : (m + n - 1) / n = m / n + if m % n = 0 then 0 else 1 := by
    have hsum : m + n - 1 = m + (n - 1) := by omega
    rw [hsum, Nat.add_div hn, Nat.div_eq_of_lt (show n - 1 < n by omega),
      Nat.mod_eq_of_lt (show n - 1 < n by omega)]
    split_ifs <;> omega
  rw [hceil]
  have hc := Nat.mod_lt c hn
  have hm := Nat.mod_lt m hn
  split_ifs at hadd ⊢ <;> omega

end Windows

section Machine

structure State where
  counter : ℕ
  /-- The positions of the alive targets that each call under way has collected. -/
  collected : ℕ → Option (List ℕ)
  /-- The positions taken so far, in the order of the tickets. -/
  taken : List ℕ

inductive Event
  | collect (call : ℕ)
  | ticket (call : ℕ)
  deriving DecidableEq, Repr

/-- One step of the calls on a balancer with these targets. -/
def step (host : Host) (ts : List Target) (s : State) : Event → Option State
  | .collect call =>
    match s.collected call with
    | none =>
      if alivePositions ts = [] then some s
      else some { s with collected := Function.update s.collected call (some (alivePositions ts)) }
    | some _ => none
  | .ticket call =>
    match s.collected call with
    | none => none
    | some alive =>
      (alive[s.counter % alive.length]?).map fun i =>
        { counter := (s.counter + 1) % 2 ^ host.usizeBits
          collected := Function.update s.collected call none
          taken := s.taken ++ [i] }

/-- No call is under way, and none has drawn a ticket. -/
structure Quiet (s : State) : Prop where
  collected : ∀ call, s.collected call = none
  taken : s.taken = []

def tickets : List Event → ℕ
  | [] => 0
  | .collect _ :: es => tickets es
  | .ticket _ :: es => tickets es + 1

/-- The answers of calls of `next` one after the other, and the balancer after them. -/
def calls (host : Host) (key : Option String) (lb : Balancer) : ℕ → List (Option String) × Balancer
  | 0 => ([], lb)
  | m + 1 =>
    let (answers, lb') := calls host key lb m
    let (answer, lb'') := lb'.next host key
    (answers ++ [answer], lb'')

variable {host : Host} {ts : List Target} {s s' : State}

/-- The tickets so far are those from `c` on, and each took the target at its remainder; the
targets taken are those of as many calls that nothing comes between. -/
structure Inv (host : Host) (ts : List Target) (c : ℕ) (s : State) : Prop where
  counter : c < 2 ^ host.usizeBits → s.counter = (c + s.taken.length) % 2 ^ host.usizeBits
  collected : ∀ call alive, s.collected call = some alive → alive = alivePositions ts
  taken : c + s.taken.length ≤ 2 ^ host.usizeBits →
    s.taken.map some = (List.range s.taken.length).map
      fun k => (alivePositions ts)[(c + k) % (alivePositions ts).length]?
  calls : ∀ key, calls host key (.roundRobin ts c) s.taken.length =
    (s.taken.map fun i => ts[i]?.map Target.url, .roundRobin ts s.counter)

/-- A ticket drawn for the alive targets gets what a call of `next` gets. -/
theorem ticket_next {call : ℕ} (key : Option String)
    (hcollected : ∀ call alive, s.collected call = some alive → alive = alivePositions ts)
    (hs : step host ts s (.ticket call) = some s') :
    ∃ i, (alivePositions ts)[s.counter % (alivePositions ts).length]? = some i ∧
      s' = { counter := (s.counter + 1) % 2 ^ host.usizeBits
             collected := Function.update s.collected call none
             taken := s.taken ++ [i] } ∧
      (Balancer.roundRobin ts s.counter).next host key =
        (ts[i]?.map Target.url, .roundRobin ts s'.counter) := by
  simp only [step] at hs
  split at hs
  · simp at hs
  · rename_i alive halive
    obtain rfl := hcollected call alive halive
    obtain ⟨i, hi, rfl⟩ := Option.map_eq_some_iff.mp hs
    have hne : ts.filter Target.alive ≠ [] := by
      rw [Ne, ← positions_eq_nil]
      exact List.ne_nil_of_mem (List.mem_of_getElem? hi)
    have hurl : ((Balancer.roundRobin ts s.counter).next host key).1 = ts[i]?.map Target.url := by
      rw [next_url, pick, hi, Option.bind_some, Balancer.targets]
    refine ⟨i, hi, rfl, Prod.ext hurl ?_⟩
    rw [Balancer.next_roundRobin, if_neg hne]

theorem inv_step {c : ℕ} {e : Event} (hs : step host ts s e = some s') (h : Inv host ts c s) :
    Inv host ts c s' := by
  cases e with
  | collect call =>
    simp only [step] at hs
    split at hs
    · split_ifs at hs
      · obtain rfl := Option.some.inj hs
        exact h
      · obtain rfl := Option.some.inj hs
        refine ⟨h.counter, fun call' alive hcall => ?_, h.taken, h.calls⟩
        by_cases hc : call' = call
        · subst hc
          simp only [Function.update_self, Option.some.injEq] at hcall
          exact hcall.symm
        · simp only [Function.update_of_ne hc] at hcall
          exact h.collected call' alive hcall
    · simp at hs
  | ticket call =>
    obtain ⟨i, hi, hs', -⟩ := ticket_next none h.collected hs
    have hlength : s'.taken.length = s.taken.length + 1 := by
      rw [hs', List.length_append, List.length_singleton]
    refine ⟨fun hlt => ?_, fun call' alive hcall => ?_, fun hle => ?_, fun key => ?_⟩
    · rw [hlength, hs', h.counter hlt, Nat.mod_add_mod, Nat.add_assoc]
    · rw [hs'] at hcall
      by_cases hc : call' = call
      · subst hc
        simp at hcall
      · simp only [Function.update_of_ne hc] at hcall
        exact h.collected call' alive hcall
    · rw [hlength] at hle
      -- the counter has not wrapped before this ticket
      have hcounter : s.counter = c + s.taken.length := by
        rw [h.counter (by omega), Nat.mod_eq_of_lt (by omega)]
      rw [hlength, List.range_succ, List.map_append, List.map_singleton, ← h.taken (by omega),
        ← hcounter, hi, hs', List.map_append, List.map_singleton]
    · obtain ⟨j, hj, hs'', hnext⟩ := ticket_next key h.collected hs
      obtain rfl := Option.some.inj (hi.symm.trans hj)
      rw [hlength, RoundRobinFairness.calls, h.calls key]
      simp only [hnext]
      rw [hs', List.map_append, List.map_singleton]

theorem inv_quiet (h : Quiet s) : Inv host ts s.counter s := by
  refine ⟨fun hlt => ?_, fun call alive hcall => ?_, fun _ => by simp [h.taken], fun key => ?_⟩
  · rw [h.taken, List.length_nil, Nat.add_zero, Nat.mod_eq_of_lt hlt]
  · rw [h.collected] at hcall
    simp at hcall
  · rw [h.taken]
    rfl

theorem length_taken {es : List Event} (hrun : Run (fun s e s' => step host ts s e = some s') s es s') :
    s'.taken.length = s.taken.length + tickets es := by
  induction hrun with
  | nil => rfl
  | @cons s e s₁ es s₂ hs _ ih =>
    rw [ih]
    cases e with
    | collect call =>
      have htaken : s₁.taken = s.taken := by
        simp only [step] at hs
        split at hs
        · split_ifs at hs
          · rw [Option.some.inj hs]
          · rw [← Option.some.inj hs]
        · simp at hs
      rw [htaken, tickets]
    | ticket call =>
      simp only [step] at hs
      split at hs
      · simp at hs
      · obtain ⟨i, -, rfl⟩ := Option.map_eq_some_iff.mp hs
        rw [List.length_append, List.length_singleton, tickets]
        omega

theorem count_taken {A taken : List ℕ} {c : ℕ} (hA : A.Nodup)
    (h : taken.map some = (List.range taken.length).map fun k => A[(c + k) % A.length]?) {i : ℕ}
    (hi : i ∈ A) :
    taken.count i = Nat.count (fun k => (c + k) % A.length = A.idxOf i) taken.length := by
  have hlt := List.idxOf_lt_length_of_mem hi
  have hmap : taken.count i = (taken.map some).count (some i) := by
    rw [List.count_map_of_injective _ _ (Option.some_injective _)]
  have hcount : ∀ m, ((List.range m).map fun k => A[(c + k) % A.length]?).count (some i) =
      Nat.count (fun k => (c + k) % A.length = A.idxOf i) m := by
    intro m
    induction m with
    | zero => rfl
    | succ m ih =>
      have hone : A[(c + m) % A.length]? = some i ↔ (c + m) % A.length = A.idxOf i := by
        have hk := Nat.mod_lt (c + m) (show 0 < A.length by omega)
        rw [← List.getElem?_idxOf hi, List.getElem?_inj hk hA]
      rw [List.range_succ, List.map_append, List.map_singleton, List.count_append, ih,
        Nat.count_succ, List.count_singleton]
      simp only [beq_iff_eq, hone]
  rw [hmap, h, hcount]

/-- `m` calls, in any interleaving, get the answers of `m` calls of `next` one after the other:
each of the `n` alive targets comes up `m / n` times, rounded down or up, and the dead ones never. -/
theorem fair {es : List Event} (hrun : Run (fun s e s' => step host ts s e = some s') s es s')
    (hs : Quiet s) (hc : s.counter + tickets es ≤ 2 ^ host.usizeBits) :
    (∀ key, calls host key (.roundRobin ts s.counter) (tickets es) =
      (s'.taken.map fun i => ts[i]?.map Target.url, .roundRobin ts s'.counter)) ∧
    s'.taken.length = tickets es ∧
    (∀ i ∈ alivePositions ts,
      s'.taken.count i = tickets es / (alivePositions ts).length ∨
      s'.taken.count i =
        (tickets es + (alivePositions ts).length - 1) / (alivePositions ts).length) ∧
    ∀ i ∉ alivePositions ts, s'.taken.count i = 0 := by
  have hlength : s'.taken.length = tickets es := by
    rw [length_taken hrun, hs.taken, List.length_nil, Nat.zero_add]
  have hinv : Inv host ts s.counter s' :=
    hrun.invariant (fun _ _ _ hstep => inv_step hstep) (inv_quiet hs)
  rw [← hlength] at hc ⊢
  have htaken := hinv.taken hc
  refine ⟨hinv.calls, rfl, fun i hi => ?_, fun i hi => ?_⟩
  · rw [count_taken (positions_nodup _ ts) htaken hi]
    exact count_window (List.idxOf_lt_length_of_mem hi) _ _
  · rw [List.count_eq_zero]
    intro hmem
    have hsome : some i ∈ s'.taken.map some := List.mem_map_of_mem hmem
    rw [htaken] at hsome
    obtain ⟨k, -, hk⟩ := List.mem_map.mp hsome
    exact hi (List.mem_of_getElem? hk)

end Machine

section Case

def quietState : State := ⟨0, fun _ => none, []⟩

def twoTargets : List Target := [Target.new "a", Target.new "b"]

def crossedEvents : List Event := [.collect 0, .collect 1, .ticket 1, .ticket 0]

theorem crossed_fair : ∃ s, execute (step Host.plain twoTargets) quietState crossedEvents = some s ∧
    s.taken = [0, 1] ∧ ∀ i ∈ alivePositions twoTargets,
      s.taken.count i = tickets crossedEvents / (alivePositions twoTargets).length ∨
      s.taken.count i = (tickets crossedEvents + (alivePositions twoTargets).length - 1) /
        (alivePositions twoTargets).length := by
  have hdone : (execute (step Host.plain twoTargets) quietState crossedEvents).any
      (fun s => s.taken = [0, 1]) = true := by decide
  obtain ⟨s, hs, htaken⟩ := (Option.any_eq_true _ _).mp hdone
  have hall := fair (Run.of_execute hs) ⟨fun _ => rfl, rfl⟩ (by decide)
  exact ⟨s, hs, of_decide_eq_true htaken, hall.2.2.1⟩

end Case

end LuaProxy.RoundRobinFairness
