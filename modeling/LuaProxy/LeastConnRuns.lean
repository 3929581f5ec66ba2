import Mathlib.Data.List.AList
import LuaProxy.Selection
import LuaProxy.Transition
import LuaProxy.RequestCourse

/-! Requests that are forwarded at the same time, and what `LeastConn` goes by. The field
`active` of a target is meant to be the number of requests that are being forwarded to it. -/
namespace LuaProxy.LeastConnRuns
open Text Context HookMonad Engine Upstream Handler RequestCourse Positions Selection Transition

section Pool

def isLeastConn : Balancer → Bool
  | .leastConn _ => true
  | _ => false

def leastConnAt (pool : UpstreamPool) (name : String) : Prop :=
  ∃ ts, pool.lookup name = some (.leastConn ts)

def Idle (pool : UpstreamPool) : Prop :=
  ∀ name lb, pool.lookup name = some lb → ∀ t ∈ lb.targets, t.active = 0

variable {host : Host} {pool : UpstreamPool}

theorem next_targets (key : Option String) (lb : Balancer) :
    (lb.next host key).2.targets = lb.targets := by
  rcases lb.next_snd host key with h | ⟨ts, counter, counter', rfl, h⟩
  · rw [h]
  · rw [h]
    rfl

theorem next_isLeastConn (key : Option String) (lb : Balancer) :
    isLeastConn (lb.next host key).2 = isLeastConn lb := by
  rcases lb.next_snd host key with h | ⟨ts, counter, counter', rfl, h⟩
  · rw [h]
  · rw [h]
    rfl

theorem storeAlive_idle {i : ℕ} {alive : Bool} {lb : Balancer} (h : ∀ t ∈ lb.targets, t.active = 0) :
    ∀ t ∈ (storeAlive i alive lb).targets, t.active = 0 := by
  have hset : ∀ ts : List Target, (∀ t ∈ ts, t.active = 0) →
      ∀ t ∈ setAlive i alive ts, t.active = 0 := by
    intro ts hts t ht
    obtain ⟨j, hj⟩ := List.mem_iff_getElem?.mp ht
    rw [setAlive, List.getElem?_modify] at hj
    obtain ⟨u, hu, rfl⟩ := Option.map_eq_some_iff.mp hj
    have hidle := hts u (List.mem_of_getElem? hu)
    split_ifs
    · exact hidle
    · exact hidle
  cases lb <;> exact hset _ h

theorem storeAlive_isLeastConn (i : ℕ) (alive : Bool) (lb : Balancer) :
    isLeastConn (storeAlive i alive lb) = isLeastConn lb := by
  cases lb <;> rfl

theorem idle_init (configs : List UpstreamConfig) : Idle (UpstreamPool.init configs) := by
  intro name lb hlb t ht
  rw [lookup_init] at hlb
  obtain ⟨cfg, -, rfl⟩ := Option.map_eq_some_iff.mp hlb
  have hidle : ∀ t ∈ cfg.targets.map Target.new, t.active = 0 := by
    simp [Target.new]
  unfold configured makeBalancer at ht
  split_ifs at ht <;> exact hidle t ht

theorem Idle.insert (h : Idle pool) {name : String} {lb : Balancer}
    (hlb : ∀ t ∈ lb.targets, t.active = 0) : Idle (pool.insert name lb) := by
  intro name' lb' hlookup
  by_cases hname : name' = name
  · subst hname
    rw [AList.lookup_insert] at hlookup
    obtain rfl := Option.some.inj hlookup
    exact hlb
  · rw [AList.lookup_insert_ne hname] at hlookup
    exact h name' lb' hlookup

theorem isLeastConn_iff {lb : Balancer} : isLeastConn lb = true ↔ ∃ ts, lb = .leastConn ts := by
  cases lb <;> simp [isLeastConn]

theorem leastConnAt_insert {name : String} {lb lb' : Balancer} (hlb : pool.lookup name = some lb)
    (hkind : isLeastConn lb' = isLeastConn lb) (name' : String) :
    leastConnAt (pool.insert name lb') name' ↔ leastConnAt pool name' := by
  by_cases hname : name' = name
  · subst hname
    simp only [leastConnAt, AList.lookup_insert, hlb, Option.some.injEq, ← isLeastConn_iff, hkind]
  · simp only [leastConnAt, AList.lookup_insert_ne hname]

end Pool

section Handler
variable {host : Host} {Src Fn Heap : Type} (L : Interpreter host Src Fn Heap) (http : Http)
  (srcs : Hook → PluginSources Src) (peer : String) (req : Request) (vm : Vm Fn Heap)
  (pool : UpstreamPool) (counters : Counters)

/-- Handling a request does nothing to the pool but select, whichever way it ends. -/
theorem handled_pool :
    ((handleRequest L http srcs peer req vm pool counters).pool = pool ∧
      (handleRequest L http srcs peer req vm pool counters).target = none) ∨
    ∃ name key,
      (handleRequest L http srcs peer req vm pool counters).pool = (pool.nextUrl host name key).2 ∧
      (handleRequest L http srcs peer req vm pool counters).target = (pool.nextUrl host name key).1 := by
  have hcourse := handleRequest_course L http srcs peer req vm pool counters
  generalize handleRequest L http srcs peer req vm pool counters = r at hcourse ⊢
  cases hcourse with
  | unread h => exact Or.inl ⟨rfl, rfl⟩
  | rejected h hrej => exact Or.inl ⟨rfl, rfl⟩
  | noTarget h hpass hnone => exact Or.inr ⟨_, _, rfl, hnone.symm⟩
  | unbuilt h hbuild => exact Or.inr ⟨_, _, rfl, h.target.symm⟩
  | unanswered h hbuild hsend => exact Or.inr ⟨_, _, rfl, h.target.symm⟩
  | unassembled h hbuild hsend hfinal => exact Or.inr ⟨_, _, rfl, h.target.symm⟩
  | answered h hbuild hsend hfinal => exact Or.inr ⟨_, _, rfl, h.target.symm⟩

end Handler

section Machine

/-- A request that is being forwarded: to a target of an upstream, by position. -/
structure Flight where
  upstream : String
  position : ℕ
  deriving DecidableEq

structure State where
  pool : UpstreamPool
  flights : AList fun _ : ℕ => Flight

/-- How forwarding a request ends. -/
inductive Exit
  | answered
  | upstreamError
  | builderError
  | dropped
  deriving DecidableEq

inductive Event
  | select (request : ℕ) (name : String) (key : Option String)
  | finish (request : ℕ) (exit : Exit)
  | health (name : String) (position : ℕ) (alive : Bool)
  deriving DecidableEq

/-- One step. No way out of the handler does anything to the pool. -/
def step (host : Host) (s : State) : Event → Option State
  | .select request name key =>
    if request ∈ s.flights then none
    else
      match s.pool.resolve name with
      | none => some s
      | some (upstream, lb) =>
        let pool := (s.pool.nextUrl host name key).2
        match pick host key lb with
        | none => some { s with pool }
        | some position => some ⟨pool, s.flights.insert request ⟨upstream, position⟩⟩
  | .finish request _ =>
    if request ∈ s.flights then some { s with flights := s.flights.erase request } else none
  | .health name position alive =>
    (s.pool.lookup name).map fun lb =>
      { s with pool := s.pool.insert name (storeAlive position alive lb) }

def start (configs : List UpstreamConfig) : State := ⟨UpstreamPool.init configs, ∅⟩

/-- The number of requests that are being forwarded to a target. -/
def inFlight (s : State) (upstream : String) (position : ℕ) : ℕ :=
  s.flights.entries.countP fun e => e.2 = ⟨upstream, position⟩

/-- What least_conn is meant to keep. -/
structure Balanced (host : Host) (s : State) : Prop where
  counted : ∀ upstream ts, s.pool.lookup upstream = some (.leastConn ts) →
    ∀ i t, ts[i]? = some t → t.active = inFlight s upstream i
  least : ∀ name key upstream ts i, s.pool.resolve name = some (upstream, .leastConn ts) →
    pick host key (.leastConn ts) = some i → i ∈ alivePositions ts ∧
      (s.pool.nextUrl host name key).1 = ts[i]?.map Target.url ∧
        ∀ j ∈ alivePositions ts, inFlight s upstream i ≤ inFlight s upstream j

/-- The step takes no target of a least_conn upstream. -/
def Spared (s : State) : Event → Prop
  | .select _ name _ => ∀ upstream ts, s.pool.resolve name = some (upstream, .leastConn ts) →
      alivePositions ts = []
  | _ => True

def NoFlight (s : State) : Prop := ∀ e ∈ s.flights.entries, ¬ leastConnAt s.pool e.2.upstream

variable {host : Host} {s s' : State}

theorem step_idle {e : Event} (hs : step host s e = some s') (h : Idle s.pool) : Idle s'.pool := by
  have hnext : ∀ name key, Idle (s.pool.nextUrl host name key).2 := by
    intro name key
    unfold UpstreamPool.nextUrl
    split
    · exact h
    · rename_i upstream lb hres
      refine h.insert fun t ht => ?_
      rw [next_targets] at ht
      exact h _ _ (resolve_lookup hres) t ht
  cases e with
  | select request name key =>
    simp only [step] at hs
    split_ifs at hs
    split at hs
    · obtain rfl := Option.some.inj hs
      exact h
    · split at hs
      · obtain rfl := Option.some.inj hs
        exact hnext name key
      · obtain rfl := Option.some.inj hs
        exact hnext name key
  | finish request exit =>
    simp only [step] at hs
    split_ifs at hs
    obtain rfl := Option.some.inj hs
    exact h
  | health name position alive =>
    obtain ⟨lb, hlb, rfl⟩ := Option.map_eq_some_iff.mp hs
    exact h.insert (storeAlive_idle (h name lb hlb))

theorem step_kinds {e : Event} (hs : step host s e = some s') (name : String) :
    leastConnAt s'.pool name ↔ leastConnAt s.pool name := by
  have hnext : ∀ name' key, leastConnAt (s.pool.nextUrl host name' key).2 name ↔
      leastConnAt s.pool name := by
    intro name' key
    unfold UpstreamPool.nextUrl
    split
    · exact Iff.rfl
    · rename_i upstream lb hres
      exact leastConnAt_insert (resolve_lookup hres) (next_isLeastConn key lb) name
  cases e with
  | select request name' key =>
    simp only [step] at hs
    split_ifs at hs
    split at hs
    · obtain rfl := Option.some.inj hs
      exact Iff.rfl
    · split at hs
      · obtain rfl := Option.some.inj hs
        exact hnext name' key
      · obtain rfl := Option.some.inj hs
        exact hnext name' key
  | finish request exit =>
    simp only [step] at hs
    split_ifs at hs
    obtain rfl := Option.some.inj hs
    exact Iff.rfl
  | health name' position alive =>
    obtain ⟨lb, hlb, rfl⟩ := Option.map_eq_some_iff.mp hs
    exact leastConnAt_insert hlb (storeAlive_isLeastConn _ _ _) name

theorem step_noFlight {e : Event} (hs : step host s e = some s') (hspared : Spared s e)
    (h : NoFlight s) : NoFlight s' := by
  have hkinds := step_kinds hs
  have hold : ∀ f ∈ s.flights.entries, ¬ leastConnAt s'.pool f.2.upstream := fun f hf =>
    fun hleast => h f hf ((hkinds _).mp hleast)
  cases e with
  | select request name key =>
    simp only [step] at hs
    split_ifs at hs with hmem
    split at hs
    · obtain rfl := Option.some.inj hs
      exact hold
    · rename_i upstream lb hres
      split at hs
      · obtain rfl := Option.some.inj hs
        exact hold
      · rename_i position hpick
        obtain rfl := Option.some.inj hs
        intro f hf
        rw [AList.entries_insert_of_notMem hmem, List.mem_cons] at hf
        rcases hf with rfl | hf
        · rintro hleast
          obtain ⟨ts, hts⟩ := (hkinds _).mp hleast
          rw [resolve_lookup hres] at hts
          obtain rfl := Option.some.inj hts
          have halive := pick_alive hpick
          rw [Balancer.targets, hspared upstream ts hres] at halive
          simp at halive
        · exact hold f hf
  | finish request exit =>
    simp only [step] at hs
    split_ifs at hs
    obtain rfl := Option.some.inj hs
    intro f hf
    exact hold f ((List.kerase_sublist _ _).subset hf)
  | health name position alive =>
    obtain ⟨lb, hlb, rfl⟩ := Option.map_eq_some_iff.mp hs
    exact hold

theorem balanced_of_noFlight (hidle : Idle s.pool) (h : NoFlight s) : Balanced host s := by
  have hzero : ∀ upstream ts, s.pool.lookup upstream = some (.leastConn ts) →
      ∀ i, inFlight s upstream i = 0 := by
    intro upstream ts hts i
    refine List.countP_eq_zero.mpr fun f hf heq => h f hf ⟨ts, ?_⟩
    rw [of_decide_eq_true heq]
    exact hts
  refine ⟨fun upstream ts hts i t ht => ?_, fun name key upstream ts i hres hpick => ?_⟩
  · rw [hzero upstream ts hts]
    exact hidle upstream _ hts t (List.mem_of_getElem? ht)
  · have hlookup := resolve_lookup hres
    refine ⟨pick_alive hpick, ?_, fun j _ => ?_⟩
    · have hurl := next_url host key (.leastConn ts)
      rw [hpick] at hurl
      simp only [UpstreamPool.nextUrl, hres]
      exact hurl
    · rw [hzero upstream ts hlookup, hzero upstream ts hlookup]

theorem unbalanced_of_taken {e : Event} (hs : step host s e = some s') (hidle : Idle s'.pool)
    (h : ¬ Spared s e) : ¬ Balanced host s' := by
  cases e with
  | select request name key =>
    simp only [Spared] at h
    push Not at h
    obtain ⟨upstream, ts, hres, halive⟩ := h
    simp only [step] at hs
    split_ifs at hs with hmem
    rw [hres] at hs
    dsimp only at hs
    cases hpick : pick host key (.leastConn ts) with
    | none => exact absurd (List.argmin_eq_none.mp hpick) halive
    | some i =>
      rw [hpick] at hs
      obtain rfl := Option.some.inj hs
      intro hbalanced
      have hlookup : (s.pool.nextUrl host name key).2.lookup upstream = some (.leastConn ts) := by
        simp only [UpstreamPool.nextUrl, hres]
        exact AList.lookup_insert _
      obtain ⟨t, ht, -⟩ := mem_alivePositions.mp (pick_alive hpick)
      have hcounted := hbalanced.counted upstream ts hlookup i t ht
      rw [hidle upstream _ hlookup t (List.mem_of_getElem? ht)] at hcounted
      simp [inFlight] at hcounted
  | finish request exit => exact absurd trivial h
  | health name position alive => exact absurd trivial h

theorem run_idle {configs : List UpstreamConfig} {es : List Event}
    (h : execute (step host) (start configs) es = some s) : Idle s.pool :=
  (Run.of_execute h).invariant (I := fun s => Idle s.pool) (fun _ _ _ hstep => step_idle hstep)
    (idle_init configs)

theorem run_noFlight {configs : List UpstreamConfig} {es : List Event}
    (h : execute (step host) (start configs) es = some s)
    (hspared : ∀ es₁ e s₁, es₁ ++ [e] <+: es → execute (step host) (start configs) es₁ = some s₁ →
      Spared s₁ e) : NoFlight s := by
  induction es using List.reverseRecOn generalizing s with
  | nil =>
    obtain rfl := Option.some.inj h
    exact fun f hf => absurd hf List.not_mem_nil
  | append_singleton es e ih =>
    rw [execute_snoc] at h
    obtain ⟨s₁, hs₁, hstep⟩ := Option.bind_eq_some_iff.mp h
    have hbefore := ih hs₁ fun es₁ e₁ s₂ hp => hspared es₁ e₁ s₂ (hp.trans (List.prefix_append _ _))
    exact step_noFlight hstep (hspared es e s₁ (List.prefix_refl _) hs₁) hbefore

/-- In a run the counters are right in every state exactly if no request is routed to a
least_conn upstream that has an alive target. -/
theorem balanced_iff {configs : List UpstreamConfig} {es : List Event}
    (hrun : execute (step host) (start configs) es = some s) :
    (∀ es₁ s₁, es₁ <+: es → execute (step host) (start configs) es₁ = some s₁ → Balanced host s₁) ↔
      ∀ es₁ e s₁, es₁ ++ [e] <+: es → execute (step host) (start configs) es₁ = some s₁ →
        Spared s₁ e := by
  constructor
  · intro hbalanced es₁ e s₁ hp hs₁
    by_contra hspared
    obtain ⟨s₂, hs₂⟩ := execute_prefix hrun hp
    have hstep := hs₂
    rw [execute_snoc, hs₁, Option.bind_some] at hstep
    exact unbalanced_of_taken hstep (run_idle hs₂) hspared (hbalanced _ s₂ hp hs₂)
  · intro hspared es₁ s₁ hp hs₁
    exact balanced_of_noFlight (run_idle hs₁) (run_noFlight hs₁ fun es₂ e s₂ hp₂ =>
      hspared es₂ e s₂ (hp₂.trans hp))

end Machine

section Case

theorem spared_select_iff {s : State} {request : ℕ} {name : String} {key : Option String} :
    Spared s (.select request name key) ↔ ∀ r ∈ s.pool.resolve name,
      isLeastConn r.2 = true → alivePositions r.2.targets = [] := by
  constructor
  · rintro h ⟨upstream, lb⟩ hres hkind
    obtain ⟨ts, rfl⟩ := isLeastConn_iff.mp hkind
    exact h upstream ts hres
  · intro h upstream ts hres
    exact h (upstream, .leastConn ts) hres rfl

instance (s : State) : (e : Event) → Decidable (Spared s e)
  | .select _ _ _ => decidable_of_iff _ spared_select_iff.symm
  | .finish _ _ => isTrue trivial
  | .health _ _ _ => isTrue trivial

theorem spared_along {host : Host} {s : State} {es : List Event}
    (h : ∀ n (hn : n < es.length), ∀ s₁ ∈ execute (step host) s (es.take n), Spared s₁ es[n])
    {es₁ : List Event} {e : Event} {s₁ : State} (hp : es₁ ++ [e] <+: es)
    (hs₁ : execute (step host) s es₁ = some s₁) : Spared s₁ e := by
  obtain ⟨es₂, rfl⟩ := hp
  have hspared := h es₁.length (by simp) s₁
  simp only [List.append_assoc, List.take_left] at hspared
  simpa using hspared hs₁

def mixedConfigs : List UpstreamConfig :=
  [⟨"default", ["http://127.0.0.1:3000", "http://127.0.0.1:3001"], "least_conn", "/health", 5⟩,
    ⟨"api", ["http://127.0.0.1:4000"], "round_robin", "/health", 5⟩]

/-- Requests go to the other upstream, and one to a least_conn upstream whose targets are down. -/
def sparedEvents : List Event :=
  [.select 0 "api" none, .health "default" 0 false, .select 1 "api" none, .health "default" 1 false,
    .select 2 "default" none, .finish 0 .answered, .health "default" 1 true]

/-- One request is still being forwarded, and the counters were right all the way. -/
theorem spared_balanced : ∃ s,
    execute (step Host.plain) (start mixedConfigs) sparedEvents = some s ∧ s.flights.keys = [1] ∧
      ∀ es₁ s₁, es₁ <+: sparedEvents →
        execute (step Host.plain) (start mixedConfigs) es₁ = some s₁ → Balanced Host.plain s₁ := by
  have hrun : (execute (step Host.plain) (start mixedConfigs) sparedEvents).any
      (fun s => s.flights.keys = [1]) = true := by decide +kernel
  obtain ⟨s, hs, hflights⟩ := (Option.any_eq_true _ _).mp hrun
  have hspared : ∀ n (hn : n < sparedEvents.length),
      ∀ s₁ ∈ execute (step Host.plain) (start mixedConfigs) (sparedEvents.take n),
        Spared s₁ sparedEvents[n] := by decide +kernel
  exact ⟨s, hs, of_decide_eq_true hflights,
    (balanced_iff hs).mpr fun _ _ _ hp hs₁ => spared_along hspared hp hs₁⟩

def leastConnConfigs : List UpstreamConfig :=
  [⟨"default", ["http://127.0.0.1:3000", "http://127.0.0.1:3001"], "least_conn", "/health", 5⟩]

/-- The target that a request is being forwarded to counts none. -/
theorem forwarded_uncounted : ¬ ∀ (host : Host) (configs : List UpstreamConfig) (es : List Event)
    (s : State), execute (step host) (start configs) es = some s → Balanced host s := by
  intro h
  have hsome : (execute (step Host.plain) (start leastConnConfigs)
    [.select 0 "default" none]).isSome := by decide
  obtain ⟨s, hs⟩ := Option.isSome_iff_exists.mp hsome
  have hstep : step Host.plain (start leastConnConfigs) (.select 0 "default" none) = some s := by
    rw [← hs, ← List.nil_append [Event.select 0 "default" none], execute_snoc]
    rfl
  refine unbalanced_of_taken hstep (run_idle hs) (fun hspared => ?_) (h _ _ _ s hs)
  have halive := hspared "default" [Target.new "http://127.0.0.1:3000",
    Target.new "http://127.0.0.1:3001"] (by decide)
  revert halive
  decide

end Case

end LuaProxy.LeastConnRuns
