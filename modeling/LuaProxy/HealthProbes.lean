import LuaProxy.Selection
import LuaProxy.Transition
import LuaProxy.CtxWrites

/-! The health checks of `upstream/pool.rs`. Each round starts a task for every target and
waits for none of them; a task stores its result when it is done. -/
namespace LuaProxy.HealthProbes
open Text Context Upstream Selection Positions Transition CtxWrites

section Check

/-- `reqwest_health_check`, for the status that the HEAD request is answered with or the error
that it ends with. -/
def healthCheck (uriOk : String → Bool) (url : String) (answer : Except String UInt16) : Bool :=
  if uriOk url then
    match answer with
    | .ok status => (200 ≤ status && status < 300) || status == 404
    | .error _ => false
  else false

/-- A target, by its upstream's name and its position. -/
abbrev Place : Type := String × ℕ

structure Probe where
  place : Place
  url : String
  deriving DecidableEq

def roundProbes (configs : List UpstreamConfig) (pool : UpstreamPool) : List Probe :=
  configs.flatMap fun cfg =>
    match pool.lookup cfg.name with
    | none => []
    | some lb => lb.targets.zipIdx.map fun e => ⟨(cfg.name, e.2), e.1.url ++ cfg.healthCheckPath⟩

def store (pool : UpstreamPool) (place : Place) (alive : Bool) : UpstreamPool :=
  match pool.lookup place.1 with
  | none => pool
  | some lb => pool.insert place.1 (storeAlive place.2 alive lb)

def aliveAt (pool : UpstreamPool) (place : Place) : Option Bool :=
  (pool.lookup place.1).bind fun lb => lb.targets[place.2]?.map Target.alive

theorem storeAlive_targets (i : ℕ) (alive : Bool) (lb : Balancer) :
    (storeAlive i alive lb).targets = setAlive i alive lb.targets := by
  cases lb <;> rfl

theorem aliveAt_store (pool : UpstreamPool) (place place' : Place) (alive : Bool) :
    aliveAt (store pool place alive) place' =
      if place' = place then (aliveAt pool place).map fun _ => alive else aliveAt pool place' := by
  obtain ⟨name, i⟩ := place
  obtain ⟨name', i'⟩ := place'
  simp only [aliveAt, store]
  cases hlb : pool.lookup name with
  | none =>
    simp only [Option.bind_none, Option.map_none]
    split_ifs with h
    · obtain ⟨rfl, rfl⟩ := Prod.mk.inj h
      simp [hlb]
    · rfl
  | some lb =>
    dsimp only
    by_cases hname : name' = name
    · subst hname
      simp only [AList.lookup_insert, hlb, Option.bind_some, storeAlive_targets, setAlive,
        List.getElem?_modify, Option.map_map, Prod.mk.injEq, true_and]
      by_cases hi : i' = i
      · subst hi
        simp only [if_true]
        cases lb.targets[i']? <;> rfl
      · have hi' : ¬ i = i' := fun h => hi h.symm
        simp only [if_neg hi, if_neg hi']
        cases lb.targets[i']? <;> rfl
    · have hne : ¬ (name', i') = (name, i) := fun h => hname (Prod.mk.inj h).1
      rw [AList.lookup_insert_ne hname, if_neg hne]

end Check

section Machine

structure Completion where
  probe : ℕ
  place : Place
  alive : Bool
  deriving DecidableEq

/-- The pool, and what has happened: the probes started and the completions, in order. -/
structure State where
  pool : UpstreamPool
  started : List Probe
  done : List Completion

inductive Event
  | round
  | complete (probe : ℕ) (answer : Except String UInt16)

variable (uriOk : String → Bool) (configs : List UpstreamConfig)

def step (s : State) : Event → Option State
  | .round => some { s with started := s.started ++ roundProbes configs s.pool }
  | .complete probe answer =>
    match s.started[probe]? with
    | none => none
    | some p =>
      if probe ∈ s.done.map Completion.probe then none
      else
        let alive := healthCheck uriOk p.url answer
        some { s with
          pool := store s.pool p.place alive
          done := s.done ++ [⟨probe, p.place, alive⟩] }

def start : State := ⟨UpstreamPool.init configs, [], []⟩

def probesOf (s : State) (place : Place) : List ℕ := positions (fun p => p.place = place) s.started

def doneAt (s : State) (place : Place) : List Completion := s.done.filter fun c => c.place = place

def Quiet (s : State) (place : Place) : Prop :=
  ∀ probe ∈ probesOf s place, probe ∈ s.done.map Completion.probe

def resultOf (s : State) (probe : ℕ) : Option Bool :=
  (s.done.find? fun c => c.probe = probe).map Completion.alive

def newest (s : State) (place : Place) : Option Bool := (probesOf s place).getLast?.bind (resultOf s)

def latest (s : State) (place : Place) : Option Bool := (doneAt s place).getLast?.map Completion.alive

/-- The flag of a target without a probe in flight is the newest probe's result. -/
def ReflectsNewest (s : State) : Prop :=
  ∀ place alive, aliveAt s.pool place = some alive → Quiet s place → alive = (newest s place).getD true

/-- The most recently started probe of a target is the one that completed last. -/
def NewestLast (s : State) (place : Place) : Prop :=
  (doneAt s place).getLast?.map Completion.probe = (probesOf s place).getLast?

instance (s : State) (place : Place) : Decidable (Quiet s place) :=
  inferInstanceAs (Decidable (∀ probe ∈ probesOf s place, probe ∈ s.done.map Completion.probe))

/-- What the flags and the history keep. -/
structure Inv (s : State) : Prop where
  flags : ∀ place alive, aliveAt s.pool place = some alive → alive = (latest s place).getD true
  places : ∀ c ∈ s.done, (s.started[c.probe]?).map Probe.place = some c.place
  once : (s.done.map Completion.probe).Nodup

variable {uriOk configs} {s s' : State}

theorem inv_start (configs : List UpstreamConfig) : Inv (start configs) := by
  refine ⟨fun place alive h => ?_, by simp [start], by simp [start]⟩
  have hfresh : ∀ lb, (UpstreamPool.init configs).lookup place.1 = some lb →
      ∀ t ∈ lb.targets, t.alive = true := by
    intro lb hlb t ht
    rw [lookup_init] at hlb
    obtain ⟨cfg, -, rfl⟩ := Option.map_eq_some_iff.mp hlb
    have hnew : ∀ t ∈ cfg.targets.map Target.new, t.alive = true := by
      simp [Target.new]
    unfold configured makeBalancer at ht
    split_ifs at ht <;> exact hnew t ht
  obtain ⟨lb, hlb, hflag⟩ := Option.bind_eq_some_iff.mp h
  obtain ⟨t, ht, rfl⟩ := Option.map_eq_some_iff.mp hflag
  exact hfresh lb hlb t (List.mem_of_getElem? ht)

theorem inv_step {e : Event} (hs : step uriOk configs s e = some s') (h : Inv s) : Inv s' := by
  cases e with
  | round =>
    obtain rfl := Option.some.inj hs
    refine ⟨h.flags, fun c hc => ?_, h.once⟩
    obtain ⟨p, hp, hplace⟩ := Option.map_eq_some_iff.mp (h.places c hc)
    have hlt := (List.getElem?_eq_some_iff.mp hp).1
    rw [List.getElem?_append_left hlt, hp, Option.map_some, hplace]
  | complete probe answer =>
    simp only [step] at hs
    split at hs
    · simp at hs
    · rename_i p hp
      split_ifs at hs with hdone
      obtain rfl := Option.some.inj hs
      refine ⟨fun place alive hflag => ?_, fun c hc => ?_, ?_⟩
      · simp only [aliveAt_store] at hflag
        simp only [latest, doneAt, List.filter_append, List.filter_cons, List.filter_nil,
          decide_eq_true_eq]
        split_ifs at hflag with hplace
        · obtain ⟨b, -, rfl⟩ := Option.map_eq_some_iff.mp hflag
          rw [if_pos hplace.symm, List.getLast?_concat]
          rfl
        · rw [if_neg (Ne.symm hplace), List.append_nil]
          exact h.flags place alive hflag
      · rcases List.mem_append.mp hc with hc | hc
        · exact h.places c hc
        · obtain rfl := List.mem_singleton.mp hc
          rw [hp, Option.map_some]
      · rw [List.map_append, List.map_singleton, List.nodup_append]
        refine ⟨h.once, by simp, fun a ha b hb => ?_⟩
        obtain rfl := List.mem_singleton.mp hb
        exact fun heq => hdone (heq ▸ ha)

theorem Inv.resultOf (h : Inv s) {c : Completion} (hc : c ∈ s.done) :
    resultOf s c.probe = some c.alive := by
  obtain ⟨c', hc'⟩ : ∃ c', (s.done.find? fun d => d.probe = c.probe) = some c' := by
    rw [← Option.isSome_iff_exists, List.find?_isSome]
    exact ⟨c, hc, by simp⟩
  have hprobe : c'.probe = c.probe := by simpa using List.find?_some hc'
  have heq := List.inj_on_of_nodup_map h.once (List.mem_of_find?_eq_some hc') hc hprobe
  rw [HealthProbes.resultOf, hc', heq, Option.map_some]

theorem Inv.newestLast (h : Inv s) {place : Place} (hlast : NewestLast s place) :
    newest s place = latest s place := by
  rw [newest, ← hlast, latest]
  cases hc : (doneAt s place).getLast? with
  | none => rfl
  | some c =>
    have hmem := List.mem_of_mem_filter (List.mem_of_getLast? hc)
    simp only [Option.map_some, Option.bind_some]
    exact h.resultOf hmem

/-- In every reachable state a target's flag is the result of the probe of it that completed
last. It is the newest probe's where that one completed last. -/
theorem flag_latest {es : List Event} (hrun : execute (step uriOk configs) (start configs) es = some s)
    {place : Place} {alive : Bool} (halive : aliveAt s.pool place = some alive) :
    alive = (latest s place).getD true ∧
      (NewestLast s place → alive = (newest s place).getD true) := by
  have hinv : Inv s := (Run.of_execute hrun).invariant (fun _ _ _ hstep => inv_step hstep)
    (inv_start configs)
  have hflag := hinv.flags place alive halive
  refine ⟨hflag, fun hlast => ?_⟩
  rw [hinv.newestLast hlast]
  exact hflag

end Machine

section Case

def oneTarget : List UpstreamConfig :=
  [⟨"api_v2", ["http://127.0.0.1:4000"], "least_conn", "/health", 10⟩]

/-- Rounds that do not overlap. -/
theorem apart_latest : ∃ s, execute (step (fun _ => true) oneTarget) (start oneTarget)
    [.round, .complete 0 (.ok 200), .round, .complete 1 (.error "timeout")] = some s ∧
      false = (latest s ("api_v2", 0)).getD true := by
  have hdown : (execute (step (fun _ => true) oneTarget) (start oneTarget)
      [.round, .complete 0 (.ok 200), .round, .complete 1 (.error "timeout")]).any
        (fun s => aliveAt s.pool ("api_v2", 0) = some false) = true := by decide
  obtain ⟨s, hs, hflag⟩ := (Option.any_eq_true _ _).mp hdown
  exact ⟨s, hs, (flag_latest hs (of_decide_eq_true hflag)).1⟩

/-- A probe of the first round fails after one of the second succeeded, and is believed. -/
theorem slow_probe_believed : ¬ ∀ (uriOk : String → Bool) (configs : List UpstreamConfig)
    (es : List Event) (s : State), execute (step uriOk configs) (start configs) es = some s →
      ReflectsNewest s := by
  intro h
  have hdown : (execute (step (fun _ => true) oneTarget) (start oneTarget)
      [.round, .round, .complete 1 (.ok 200), .complete 0 (.error "timeout")]).any
        (fun s => aliveAt s.pool ("api_v2", 0) = some false ∧ Quiet s ("api_v2", 0) ∧
          newest s ("api_v2", 0) = some true) = true := by decide
  obtain ⟨s, hs, hstate⟩ := (Option.any_eq_true _ _).mp hdown
  obtain ⟨hflag, hquiet, hnewest⟩ := of_decide_eq_true hstate
  have hreflects := h _ _ _ s hs ("api_v2", 0) false hflag hquiet
  rw [hnewest] at hreflects
  simp at hreflects

end Case

end LuaProxy.HealthProbes
