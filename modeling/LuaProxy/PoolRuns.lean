import LuaProxy.HealthProbes
import LuaProxy.Refinement

/-! Health checks and calls of `next_url`, step by step and all at once: probes end at any time,
and a call loads one flag after the other. What each call answers follows from the configuration
and from what was reported before; the pool is one way to keep that. -/
namespace LuaProxy.PoolRuns
open Text Context Upstream Selection Positions Transition Refinement CtxWrites HealthProbes

section Machine

/-- What the tasks and the calls use. -/
structure Service (σ : Type) where
  /-- The tasks that a round of health checks starts. -/
  probes : σ → List Probe
  /-- A task stores its result. -/
  report : Place → Bool → σ → σ
  /-- The upstream that is asked when a name is asked for. -/
  resolve : String → σ → Option String
  /-- A load of a target's flag, if there is such a target. -/
  flag : Place → σ → Option Bool
  /-- The answer of an upstream, with a key and the flags that were loaded. -/
  choose : String → Option String → List Bool → σ → Option String × σ

/-- A call under way, with the flags it has loaded. -/
structure Call where
  upstream : String
  key : Option String
  flags : List Bool

structure State (σ : Type) where
  service : σ
  started : List Probe
  /-- The probes that have ended. -/
  ended : List ℕ
  calls : ℕ → Option Call
  answers : List (ℕ × Option String)

inductive Event
  | round
  | complete (probe : ℕ) (answer : Except String UInt16)
  | call (caller : ℕ) (name : String) (key : Option String)
  | load (caller : ℕ)
  | answer (caller : ℕ)

variable {σ : Type} (S : Service σ) (uriOk : String → Bool)

def step (s : State σ) : Event → Option (State σ)
  | .round => some { s with started := s.started ++ S.probes s.service }
  | .complete probe answer =>
    match s.started[probe]? with
    | none => none
    | some p =>
      if probe ∈ s.ended then none
      else
        some { s with
          service := S.report p.place (healthCheck uriOk p.url answer) s.service
          ended := s.ended ++ [probe] }
  | .call caller name key =>
    match s.calls caller with
    | some _ => none
    | none =>
      match S.resolve name s.service with
      | none => some { s with answers := s.answers ++ [(caller, none)] }
      | some upstream =>
        some { s with calls := Function.update s.calls caller (some ⟨upstream, key, []⟩) }
  | .load caller =>
    match s.calls caller with
    | none => none
    | some c =>
      (S.flag (c.upstream, c.flags.length) s.service).map fun alive =>
        { s with
          calls := Function.update s.calls caller (some { c with flags := c.flags ++ [alive] }) }
  | .answer caller =>
    match s.calls caller with
    | none => none
    | some c =>
      -- the flags of all targets are loaded
      if (S.flag (c.upstream, c.flags.length) s.service).isSome then none
      else
        let r := S.choose c.upstream c.key c.flags s.service
        some { s with
          service := r.2
          calls := Function.update s.calls caller none
          answers := s.answers ++ [(caller, r.1)] }

def start (service : σ) : State σ := ⟨service, [], [], fun _ => none, []⟩

/-- One service does what another does, as far as can be told. -/
structure Implements {σ τ : Type} (S : Service σ) (S' : Service τ) (R : σ → τ → Prop) : Prop where
  probes : ∀ a b, R a b → S.probes a = S'.probes b
  report : ∀ a b, R a b → ∀ place alive, R (S.report place alive a) (S'.report place alive b)
  resolve : ∀ a b, R a b → ∀ name, S.resolve name a = S'.resolve name b
  flag : ∀ a b, R a b → ∀ place, S.flag place a = S'.flag place b
  choose : ∀ a b, R a b → ∀ upstream key flags,
    (S.choose upstream key flags a).1 = (S'.choose upstream key flags b).1 ∧
      R (S.choose upstream key flags a).2 (S'.choose upstream key flags b).2

/-- Two machines that differ in what keeps the service. -/
structure Alike {σ τ : Type} (R : σ → τ → Prop) (s : State σ) (t : State τ) : Prop where
  service : R s.service t.service
  started : s.started = t.started
  ended : s.ended = t.ended
  calls : s.calls = t.calls
  answers : s.answers = t.answers

theorem Implements.simulates {σ τ : Type} {S : Service σ} {S' : Service τ} {R : σ → τ → Prop}
    (h : Implements S S' R) : Simulates (step S uriOk) (step S' uriOk) (Alike R) := by
  rintro ⟨a, started, ended, calls, answers⟩ ⟨b, _, _, _, _⟩ e ⟨hR, rfl, rfl, rfl, rfl⟩
  dsimp only at hR
  cases e with
  | round =>
    refine .some ⟨hR, ?_, rfl, rfl, rfl⟩
    dsimp only
    rw [h.probes a b hR]
  | complete probe answer =>
    simp only [step]
    cases started[probe]? with
    | none => exact .none
    | some p =>
      dsimp only
      split_ifs
      · exact .none
      · exact .some ⟨h.report a b hR _ _, rfl, rfl, rfl, rfl⟩
  | call caller name key =>
    simp only [step, h.resolve a b hR]
    cases calls caller with
    | some c => exact .none
    | none =>
      cases S'.resolve name b with
      | none => exact .some ⟨hR, rfl, rfl, rfl, rfl⟩
      | some upstream => exact .some ⟨hR, rfl, rfl, rfl, rfl⟩
  | load caller =>
    simp only [step, h.flag a b hR]
    cases calls caller with
    | none => exact .none
    | some c =>
      cases hflag : S'.flag (c.upstream, c.flags.length) b with
      | none =>
        simp only [hflag]
        exact .none
      | some alive =>
        simp only [hflag]
        exact .some ⟨hR, rfl, rfl, rfl, rfl⟩
  | answer caller =>
    simp only [step, h.flag a b hR]
    cases calls caller with
    | none => exact .none
    | some c =>
      obtain ⟨hanswer, hservice⟩ := h.choose a b hR c.upstream c.key c.flags
      dsimp only
      split_ifs
      · exact .none
      · exact .some ⟨hservice, rfl, rfl, rfl, by rw [hanswer]⟩

end Machine

section Pool
variable (host : Host) (configs : List UpstreamConfig)

def seen {α : Type} (xs : List α) (flags : List Bool) : List α :=
  ((xs.zip flags).filter Prod.snd).map Prod.fst

/-- `next` once the flags are loaded. -/
def nextSeen (key : Option String) (flags : List Bool) : Balancer → Option String × Balancer
  | .roundRobin ts counter =>
    let alive := seen ts flags
    if alive = [] then (none, .roundRobin ts counter)
    else
      let idx := counter % alive.length
      (alive[idx]?.map Target.url, .roundRobin ts ((counter + 1) % 2 ^ host.usizeBits))
  | .leastConn ts =>
    ((Balancer.minByKey Target.active (seen ts flags)).map Target.url, .leastConn ts)
  | .consistentHash ts =>
    let alive := seen ts flags
    if alive = [] then (none, .consistentHash ts)
    else
      let h := host.hashKey (key.getD "default")
      let idx := h.toNat % 2 ^ host.usizeBits % alive.length
      (alive[idx]?.map Target.url, .consistentHash ts)

/-- `UpstreamPool` with its health checks. -/
def poolService : Service UpstreamPool where
  probes pool := roundProbes configs pool
  report place alive pool := store pool place alive
  resolve name pool := (pool.resolve name).map Prod.fst
  flag place pool := aliveAt pool place
  choose upstream key flags pool :=
    match pool.lookup upstream with
    | none => (none, pool)
    | some lb =>
      let r := nextSeen host key flags lb
      (r.1, pool.insert upstream r.2)

theorem seen_flags (ts : List Target) : seen ts (ts.map Target.alive) = ts.filter Target.alive := by
  induction ts with
  | nil => rfl
  | cons t ts ih =>
    simp only [seen, List.map_cons, List.zip_cons_cons, List.filter_cons] at ih ⊢
    split_ifs
    · rw [List.map_cons, ih]
    · exact ih

theorem nextSeen_flags (key : Option String) (lb : Balancer) :
    nextSeen host key (lb.targets.map Target.alive) lb = lb.next host key := by
  cases lb <;> simp only [nextSeen, Balancer.next_roundRobin, Balancer.next_leastConn,
    Balancer.next_consistentHash, Balancer.targets, seen_flags]

end Pool

section Book
variable (host : Host) (configs : List UpstreamConfig)

/-- What has been reported of the targets, and the turns that upstreams have given out. -/
structure Book where
  reports : List (Place × Bool)
  turns : List String

/-- A target is taken to be up until a probe says otherwise. -/
def Book.up (b : Book) (place : Place) : Bool :=
  (lastSome (fun r => if r.1 = place then some r.2 else none) b.reports).getD true

/-- The next of the targets found up, by the kind of the upstream: the first one, the one the key
falls on, or the one whose turn it is. -/
def choice (cfg : UpstreamConfig) (key : Option String) (turn : ℕ) (up : List String) : Option String :=
  if cfg.lb = "least_conn" then up.head?
  else if cfg.lb = "consistent_hash" then
    up[(host.hashKey (key.getD "default")).toNat % 2 ^ host.usizeBits % up.length]?
  else up[turn % 2 ^ host.usizeBits % up.length]?

def takesTurns (cfg : UpstreamConfig) : Bool := cfg.lb ≠ "least_conn" ∧ cfg.lb ≠ "consistent_hash"

/-- The same service, kept as a book. -/
def bookService : Service Book where
  probes _ := configs.flatMap fun cfg =>
    match configFor configs cfg.name with
    | none => []
    | some last => last.targets.zipIdx.map fun e => ⟨(cfg.name, e.2), e.1 ++ cfg.healthCheckPath⟩
  report place alive b := { b with reports := b.reports ++ [(place, alive)] }
  resolve name _ := (resolveConfig configs name).map UpstreamConfig.name
  flag place b := (configFor configs place.1).bind fun cfg =>
    if place.2 < cfg.targets.length then some (b.up place) else none
  choose upstream key flags b :=
    match configFor configs upstream with
    | none => (none, b)
    | some cfg =>
      let up := seen cfg.targets flags
      (choice host cfg key (b.turns.count upstream) up,
        if takesTurns cfg ∧ up ≠ [] then { b with turns := b.turns ++ [upstream] } else b)

variable {host configs}

theorem up_report (b : Book) (place place' : Place) (alive : Bool) :
    Book.up { b with reports := b.reports ++ [(place, alive)] } place' =
      if place' = place then alive else b.up place' := by
  unfold Book.up
  rw [lastSome_append]
  by_cases h : place' = place
  · subst h
    simp [lastSome_cons]
  · have h' : ¬ place = place' := fun e => h e.symm
    simp [lastSome_cons, h, h']

/-- The targets of an upstream as the book has them: none counts a request. -/
def keptTargets (b : Book) (cfg : UpstreamConfig) : List Target :=
  cfg.targets.zipIdx.map fun e => ⟨e.1, b.up (cfg.name, e.2), 0⟩

variable (host) in
/-- An upstream as the book has it. -/
def kept (b : Book) (cfg : UpstreamConfig) : Balancer :=
  if cfg.lb = "least_conn" then .leastConn (keptTargets b cfg)
  else if cfg.lb = "consistent_hash" then .consistentHash (keptTargets b cfg)
  else .roundRobin (keptTargets b cfg) (b.turns.count cfg.name % 2 ^ host.usizeBits)

variable (host configs) in
/-- The pool is as the book has it. -/
def Keeps (pool : UpstreamPool) (b : Book) : Prop :=
  ∀ name, pool.lookup name = (configFor configs name).map (kept host b)

theorem kept_targets (b : Book) (cfg : UpstreamConfig) :
    (kept host b cfg).targets = keptTargets b cfg := by
  unfold kept
  split_ifs <;> rfl

theorem keptTargets_url (b : Book) (cfg : UpstreamConfig) :
    (keptTargets b cfg).map Target.url = cfg.targets := by
  simp only [keptTargets, List.map_map, Function.comp_def]
  exact List.zipIdx_map_fst 0 cfg.targets

theorem seen_map {α β : Type} (f : α → β) (xs : List α) (flags : List Bool) :
    seen (xs.map f) flags = (seen xs flags).map f := by
  simp only [seen, List.zip_map_left, List.filter_map, List.map_map]
  rfl

theorem seen_urls (b : Book) (cfg : UpstreamConfig) (flags : List Bool) :
    (seen (keptTargets b cfg) flags).map Target.url = seen cfg.targets flags := by
  rw [← seen_map, keptTargets_url]

theorem minByKey_idle {ts : List Target} (h : ∀ t ∈ ts, t.active = 0) :
    Balancer.minByKey Target.active ts = ts.head? := by
  cases ts with
  | nil => rfl
  | cons t ts =>
    rw [Balancer.minByKey, List.head?_cons]
    cases hmin : Balancer.minByKey Target.active ts with
    | none => rfl
    | some u =>
      have hzero : t.active = 0 := h t (by simp)
      simp [hzero]

theorem seen_idle (b : Book) (cfg : UpstreamConfig) (flags : List Bool) :
    ∀ t ∈ seen (keptTargets b cfg) flags, t.active = 0 := by
  intro t ht
  obtain ⟨e, he, rfl⟩ := List.mem_map.mp ht
  have hmem := (List.of_mem_zip (List.mem_of_mem_filter he)).1
  obtain ⟨e', -, he'⟩ := List.mem_map.mp hmem
  rw [← he']

variable (host) in
/-- The pool answers as the book does. -/
theorem nextSeen_kept (b : Book) (cfg : UpstreamConfig) (key : Option String) (flags : List Bool) :
    (nextSeen host key flags (kept host b cfg)).1 =
        choice host cfg key (b.turns.count cfg.name) (seen cfg.targets flags) ∧
      (nextSeen host key flags (kept host b cfg)).2 =
        kept host (if takesTurns cfg ∧ seen cfg.targets flags ≠ [] then
          { b with turns := b.turns ++ [cfg.name] } else b) cfg := by
  have hurls := seen_urls b cfg flags
  have hlength : (seen (keptTargets b cfg) flags).length = (seen cfg.targets flags).length := by
    rw [← hurls, List.length_map]
  have hnil : seen (keptTargets b cfg) flags = [] ↔ seen cfg.targets flags = [] := by
    rw [← hurls, List.map_eq_nil_iff]
  have hget : ∀ i : ℕ, (seen (keptTargets b cfg) flags)[i]?.map Target.url = (seen cfg.targets flags)[i]? := by
    intro i
    rw [← hurls, List.getElem?_map]
  by_cases hleast : cfg.lb = "least_conn"
  · have hbook : ¬ (takesTurns cfg ∧ seen cfg.targets flags ≠ []) := by simp [takesTurns, hleast]
    rw [if_neg hbook, kept, if_pos hleast, choice, if_pos hleast, nextSeen,
      minByKey_idle (seen_idle b cfg flags)]
    refine ⟨?_, rfl⟩
    rw [← hurls, List.head?_map]
  by_cases hhash : cfg.lb = "consistent_hash"
  · have hbook : ¬ (takesTurns cfg ∧ seen cfg.targets flags ≠ []) := by simp [takesTurns, hhash]
    rw [if_neg hbook, kept, if_neg hleast, if_pos hhash, choice, if_neg hleast, if_pos hhash]
    simp only [nextSeen, hlength, hnil]
    by_cases h : seen cfg.targets flags = []
    · rw [if_pos h, h]
      exact ⟨rfl, rfl⟩
    · rw [if_neg h]
      exact ⟨hget _, rfl⟩
  · have hturns : takesTurns cfg = true := by simp [takesTurns, hleast, hhash]
    simp only [kept, choice, if_neg hleast, if_neg hhash, nextSeen, hlength, hnil]
    by_cases h : seen cfg.targets flags = []
    · rw [if_pos h, if_neg (by simp [h]), h]
      exact ⟨rfl, rfl⟩
    · have hcount : (b.turns ++ [cfg.name]).count cfg.name = b.turns.count cfg.name + 1 := by simp
      rw [if_neg h, if_pos ⟨hturns, h⟩, hcount, Nat.mod_add_mod]
      exact ⟨hget _, rfl⟩

end Book

section Refinement
variable {host : Host} {configs : List UpstreamConfig} {pool : UpstreamPool} {b : Book}

theorem Keeps.insert (h : Keeps host configs pool b) {upstream : String} {cfg : UpstreamConfig} {b' : Book}
    (hcfg : configFor configs upstream = some cfg)
    (hothers : ∀ cfg', cfg'.name ≠ upstream → kept host b' cfg' = kept host b cfg') :
    Keeps host configs (pool.insert upstream (kept host b' cfg)) b' := by
  intro name
  by_cases hname : name = upstream
  · subst hname
    rw [AList.lookup_insert, hcfg, Option.map_some]
  · rw [AList.lookup_insert_ne hname, h name]
    cases hc : configFor configs name with
    | none => rfl
    | some cfg' =>
      rw [Option.map_some, Option.map_some, hothers cfg' (by rwa [configFor_name hc])]

theorem keptTargets_report (b : Book) (place : Place) (alive : Bool) (cfg : UpstreamConfig) :
    keptTargets { b with reports := b.reports ++ [(place, alive)] } cfg =
      if cfg.name = place.1 then setAlive place.2 alive (keptTargets b cfg) else keptTargets b cfg := by
  obtain ⟨name, i⟩ := place
  simp only [keptTargets, up_report]
  split_ifs with hname
  · subst hname
    refine List.ext_getElem? fun j => ?_
    simp only [setAlive, List.getElem?_modify, List.getElem?_map, List.getElem?_zipIdx, Prod.mk.injEq,
      true_and, zero_add]
    cases cfg.targets[j]? with
    | none => simp
    | some url =>
      by_cases hj : i = j
      · simp [hj]
      · have hj' : ¬ j = i := fun e => hj e.symm
        simp [hj, hj']
  · refine List.map_congr_left fun e _ => ?_
    simp [hname]

theorem kept_report (b : Book) (place : Place) (alive : Bool) (cfg : UpstreamConfig) :
    kept host { b with reports := b.reports ++ [(place, alive)] } cfg =
      if cfg.name = place.1 then storeAlive place.2 alive (kept host b cfg) else kept host b cfg := by
  simp only [kept, keptTargets_report]
  split_ifs <;> rfl

theorem kept_turn (b : Book) {upstream : String} {cfg : UpstreamConfig} (h : cfg.name ≠ upstream) :
    kept host { b with turns := b.turns ++ [upstream] } cfg = kept host b cfg := by
  have hcount : (b.turns ++ [upstream]).count cfg.name = b.turns.count cfg.name := by
    rw [List.count_append, List.count_singleton]
    simp [Ne.symm h]
  simp only [kept, hcount]
  rfl

theorem pool_probes (h : Keeps host configs pool b) :
    (poolService host configs).probes pool = (bookService host configs).probes b := by
  simp only [poolService, bookService, roundProbes]
  congr 1
  funext cfg
  rw [h cfg.name]
  cases configFor configs cfg.name with
  | none => rfl
  | some last =>
    have hurls : (keptTargets b last).zipIdx.map
        (fun e => (⟨(cfg.name, e.2), e.1.url ++ cfg.healthCheckPath⟩ : Probe)) =
      ((keptTargets b last).map Target.url).zipIdx.map
        fun e => ⟨(cfg.name, e.2), e.1 ++ cfg.healthCheckPath⟩ := by
      rw [List.zipIdx_map, List.map_map]
      rfl
    rw [Option.map_some]
    dsimp only
    rw [kept_targets, hurls, keptTargets_url]

theorem pool_report (h : Keeps host configs pool b) (place : Place) (alive : Bool) :
    Keeps host configs ((poolService host configs).report place alive pool)
      ((bookService host configs).report place alive b) := by
  have hlookup := h place.1
  simp only [poolService, bookService, store]
  cases hc : configFor configs place.1 with
  | none =>
    rw [hc, Option.map_none] at hlookup
    rw [hlookup]
    intro name
    rw [h name]
    cases hn : configFor configs name with
    | none => rfl
    | some cfg =>
      have hname : cfg.name ≠ place.1 := by
        rintro hname
        rw [← configFor_name hn, hname, hc] at hn
        simp at hn
      rw [Option.map_some, Option.map_some, kept_report, if_neg hname]
  | some cfg =>
    rw [hc, Option.map_some] at hlookup
    rw [hlookup]
    have hname := configFor_name hc
    have hstored : storeAlive place.2 alive (kept host b cfg) =
        kept host { b with reports := b.reports ++ [(place, alive)] } cfg := by
      rw [kept_report, if_pos hname]
    dsimp only
    rw [hstored]
    exact h.insert hc fun cfg' hne => by rw [kept_report, if_neg hne]

theorem pool_resolve (h : Keeps host configs pool b) (name : String) :
    (poolService host configs).resolve name pool = (bookService host configs).resolve name b := by
  have hname := h name
  have hdefault := h "default"
  simp only [poolService, bookService, UpstreamPool.resolve, resolveConfig]
  cases hc : configFor configs name with
  | some cfg =>
    rw [hc, Option.map_some] at hname
    rw [hname]
    simp [configFor_name hc]
  | none =>
    rw [hc, Option.map_none] at hname
    rw [hname]
    cases hd : configFor configs "default" with
    | none =>
      rw [hd, Option.map_none] at hdefault
      simp [hdefault]
    | some cfg =>
      rw [hd, Option.map_some] at hdefault
      simp [hdefault, configFor_name hd]

theorem pool_flag (h : Keeps host configs pool b) (place : Place) :
    (poolService host configs).flag place pool = (bookService host configs).flag place b := by
  simp only [poolService, bookService, aliveAt, h place.1]
  cases hc : configFor configs place.1 with
  | none => rfl
  | some cfg =>
    rw [Option.map_some, Option.bind_some, Option.bind_some, kept_targets, keptTargets,
      List.getElem?_map, List.getElem?_zipIdx]
    split_ifs with hi
    · simp [List.getElem?_eq_getElem hi, configFor_name hc]
    · simp [List.getElem?_eq_none (Nat.le_of_not_lt hi)]

theorem pool_choose (h : Keeps host configs pool b) (upstream : String) (key : Option String)
    (flags : List Bool) :
    ((poolService host configs).choose upstream key flags pool).1 =
        ((bookService host configs).choose upstream key flags b).1 ∧
      Keeps host configs ((poolService host configs).choose upstream key flags pool).2
        ((bookService host configs).choose upstream key flags b).2 := by
  have hlookup := h upstream
  simp only [poolService, bookService]
  cases hc : configFor configs upstream with
  | none =>
    rw [hc, Option.map_none] at hlookup
    rw [hlookup]
    exact ⟨rfl, h⟩
  | some cfg =>
    rw [hc, Option.map_some] at hlookup
    rw [hlookup]
    obtain rfl := configFor_name hc
    obtain ⟨hanswer, hafter⟩ := nextSeen_kept host b cfg key flags
    dsimp only
    rw [hafter]
    refine ⟨hanswer, h.insert hc fun cfg' hne => ?_⟩
    split_ifs
    · exact kept_turn b hne
    · rfl

variable (host configs) in
theorem pool_implements :
    Implements (poolService host configs) (bookService host configs) (Keeps host configs) where
  probes _ _ h := pool_probes h
  report _ _ h := pool_report h
  resolve _ _ h := pool_resolve h
  flag _ _ h := pool_flag h
  choose _ _ h := pool_choose h

theorem keeps_init : Keeps host configs (UpstreamPool.init configs) ⟨[], []⟩ := by
  intro name
  rw [lookup_init]
  congr 1
  funext cfg
  have htargets : keptTargets ⟨[], []⟩ cfg = cfg.targets.map Target.new := by
    have hfst := List.zipIdx_map_fst 0 cfg.targets
    conv_rhs => rw [← hfst, List.map_map]
    rfl
  simp only [configured, makeBalancer, kept, htargets, List.count_nil, Nat.zero_mod]

variable (host configs) in
/-- The two machines go the same way, and the pool stays as the book has it. -/
theorem pool_matched (uriOk : String → Bool) (es : List Event) :
    Matched (Alike (Keeps host configs))
      (execute (step (poolService host configs) uriOk) (start (UpstreamPool.init configs)) es)
      (execute (step (bookService host configs) uriOk) (start ⟨[], []⟩) es) :=
  ((pool_implements host configs).simulates uriOk).execute ⟨keeps_init, rfl, rfl, rfl, rfl⟩ es

/-- In every run of health checks and calls, each call answers what the configuration and the
reports and turns before it say. -/
theorem answers_by_book (host : Host) (configs : List UpstreamConfig) (uriOk : String → Bool)
    (es : List Event) :
    (execute (step (poolService host configs) uriOk) (start (UpstreamPool.init configs)) es).map
        State.answers =
      (execute (step (bookService host configs) uriOk) (start ⟨[], []⟩) es).map State.answers :=
  (pool_matched host configs uriOk es).view fun _ _ h => h.answers

end Refinement

section During
variable {σ : Type} {S : Service σ} {uriOk : String → Bool} {s₁ s : State σ} {caller : ℕ}

/-- A call under way has loaded each of its flags at some moment since it began. -/
structure Loaded (S : Service σ) (uriOk : String → Bool) (s₁ : State σ) (mid : List Event)
    (upstream : String) (flags : List Bool) : Prop where
  moment : ∀ j alive, flags[j]? = some alive → ∃ mid₁ s', mid₁ <+: mid ∧
    execute (step S uriOk) s₁ mid₁ = some s' ∧ S.flag (upstream, j) s'.service = some alive

theorem Loaded.later {mid : List Event} {upstream : String} {flags : List Bool}
    (h : Loaded S uriOk s₁ mid upstream flags) (e : Event) :
    Loaded S uriOk s₁ (mid ++ [e]) upstream flags := by
  refine ⟨fun j alive hj => ?_⟩
  obtain ⟨mid₁, s', hp, hs', hflag⟩ := h.moment j alive hj
  exact ⟨mid₁, s', hp.trans (List.prefix_append _ _), hs', hflag⟩

theorem step_call {s s' : State σ} {e : Event} (hs : step S uriOk s e = some s') {c : Call}
    (hc : s.calls caller = some c) (hload : e ≠ .load caller) (hanswer : e ≠ .answer caller) :
    s'.calls caller = some c := by
  cases e with
  | round =>
    obtain rfl := Option.some.inj hs
    exact hc
  | complete probe answer =>
    simp only [step] at hs
    split at hs
    · simp at hs
    · split_ifs at hs
      obtain rfl := Option.some.inj hs
      exact hc
  | call caller' name key =>
    have hne : caller ≠ caller' := by
      rintro rfl
      simp [step, hc] at hs
    simp only [step] at hs
    split at hs
    · simp at hs
    · split at hs
      · obtain rfl := Option.some.inj hs
        exact hc
      · obtain rfl := Option.some.inj hs
        exact (Function.update_of_ne hne _ _).trans hc
  | load caller' =>
    have hne : caller ≠ caller' := fun h => hload (h ▸ rfl)
    simp only [step] at hs
    split at hs
    · simp at hs
    · obtain ⟨alive, -, rfl⟩ := Option.map_eq_some_iff.mp hs
      exact (Function.update_of_ne hne _ _).trans hc
  | answer caller' =>
    have hne : caller ≠ caller' := fun h => hanswer (h ▸ rfl)
    simp only [step] at hs
    split at hs
    · simp at hs
    · split_ifs at hs
      obtain rfl := Option.some.inj hs
      exact (Function.update_of_ne hne _ _).trans hc

theorem call_loaded {mid : List Event} {upstream : String} {key : Option String}
    (hbegin : s₁.calls caller = some ⟨upstream, key, []⟩)
    (hrun : execute (step S uriOk) s₁ mid = some s) (hmid : ∀ e ∈ mid, e ≠ .answer caller) :
    ∃ flags, s.calls caller = some ⟨upstream, key, flags⟩ ∧ Loaded S uriOk s₁ mid upstream flags := by
  induction mid using List.reverseRecOn generalizing s with
  | nil =>
    obtain rfl := Option.some.inj hrun
    exact ⟨[], hbegin, ⟨by simp⟩⟩
  | append_singleton mid e ih =>
    rw [execute_snoc] at hrun
    obtain ⟨s₂, hs₂, hstep⟩ := Option.bind_eq_some_iff.mp hrun
    obtain ⟨flags, hcall, hloaded⟩ := ih hs₂ fun e' he' => hmid e' (by simp [he'])
    have hanswer := hmid e (by simp)
    by_cases hload : e = .load caller
    · subst hload
      simp only [step, hcall] at hstep
      obtain ⟨alive, halive, rfl⟩ := Option.map_eq_some_iff.mp hstep
      refine ⟨flags ++ [alive], by simp, ⟨fun j a hj => ?_⟩⟩
      rcases Nat.lt_trichotomy j flags.length with h | rfl | h
      · rw [List.getElem?_append_left h] at hj
        exact (hloaded.later _).moment j a hj
      · rw [List.getElem?_concat_length] at hj
        obtain rfl := Option.some.inj hj
        exact ⟨mid, s₂, List.prefix_append _ _, hs₂, halive⟩
      · rw [List.getElem?_eq_none (by simp; omega)] at hj
        simp at hj
    · exact ⟨flags, step_call hstep hcall hload hanswer, hloaded.later e⟩

end During

section Safety
variable {host : Host} {configs : List UpstreamConfig} {uriOk : String → Bool}

theorem resolveConfig_found {name : String} {cfg : UpstreamConfig}
    (h : resolveConfig configs name = some cfg) : configFor configs cfg.name = some cfg := by
  rcases Option.or_eq_some_iff.mp h with h | ⟨-, h⟩
  · rw [configFor_name h, h]
  · rw [configFor_name h, h]

theorem choice_mem {cfg : UpstreamConfig} {key : Option String} {turn : ℕ} {up : List String} {url : String}
    (h : choice host cfg key turn up = some url) : url ∈ up := by
  unfold choice at h
  split_ifs at h
  · exact List.mem_of_head? h
  · exact List.mem_of_getElem? h
  · exact List.mem_of_getElem? h

theorem choice_none {cfg : UpstreamConfig} {key : Option String} {turn : ℕ} {up : List String}
    (h : choice host cfg key turn up = none) : up = [] := by
  by_contra hup
  have hpos : 0 < up.length := List.length_pos_iff.mpr hup
  unfold choice at h
  split_ifs at h
  · exact hup (List.head?_eq_none_iff.mp h)
  · exact absurd (List.getElem?_eq_none_iff.mp h) (Nat.not_le.mpr (Nat.mod_lt _ hpos))
  · exact absurd (List.getElem?_eq_none_iff.mp h) (Nat.not_le.mpr (Nat.mod_lt _ hpos))

theorem mem_seen {α : Type} {xs : List α} {flags : List Bool} {x : α} :
    x ∈ seen xs flags ↔ ∃ i : ℕ, xs[i]? = some x ∧ flags[i]? = some true := by
  simp only [seen, List.mem_map, List.mem_filter, Prod.exists]
  constructor
  · rintro ⟨x', flag, ⟨hmem, rfl⟩, rfl⟩
    obtain ⟨i, hi⟩ := List.mem_iff_getElem?.mp hmem
    exact ⟨i, List.getElem?_zip_eq_some.mp hi⟩
  · rintro ⟨i, hx, hflag⟩
    exact ⟨x, true, ⟨List.mem_of_getElem? (List.getElem?_zip_eq_some.mpr ⟨hx, hflag⟩), rfl⟩, rfl⟩

variable (host configs uriOk) in
/-- At some moment after these events, and before the rest of them was over, the last report of
the target was this; a target without a report is up. -/
def During (before rest : List Event) (place : Place) (alive : Bool) : Prop :=
  ∃ rest₁ t, rest₁ <+: rest ∧
    execute (step (bookService host configs) uriOk) (start ⟨[], []⟩) (before ++ rest₁) = some t ∧
      t.service.up place = alive

/-- An answer to a call, judged by what was reported while it was under way. -/
structure Justified (host : Host) (configs : List UpstreamConfig) (uriOk : String → Bool)
    (cfg : UpstreamConfig) (before rest : List Event) (answer : Option String) : Prop where
  target : ∀ url, answer = some url → ∃ i, cfg.targets[i]? = some url ∧
    During host configs uriOk before rest (cfg.name, i) true
  none : answer = none → ∀ i < cfg.targets.length,
    During host configs uriOk before rest (cfg.name, i) false

theorem book_justified {pre mid : List Event} {caller : ℕ} {name : String} {key : Option String}
    {cfg : UpstreamConfig} {t : State Book} (hcfg : resolveConfig configs name = some cfg)
    (hrun : execute (step (bookService host configs) uriOk) (start ⟨[], []⟩)
      (pre ++ [.call caller name key] ++ mid ++ [.answer caller]) = some t)
    (hmid : ∀ e ∈ mid, e ≠ .answer caller) :
    ∃ answer, t.answers.getLast? = some (caller, answer) ∧
      Justified host configs uriOk cfg (pre ++ [.call caller name key]) mid answer := by
  have hfound := resolveConfig_found hcfg
  rw [execute_snoc, execute_append] at hrun
  obtain ⟨t₂, hrest, hanswer⟩ := Option.bind_eq_some_iff.mp hrun
  obtain ⟨t₁, hfirst, hsecond⟩ := Option.bind_eq_some_iff.mp hrest
  have hbegin : t₁.calls caller = some ⟨cfg.name, key, []⟩ := by
    rw [execute_snoc] at hfirst
    obtain ⟨t₀, -, hcall⟩ := Option.bind_eq_some_iff.mp hfirst
    have hresolve : (bookService host configs).resolve name t₀.service = some cfg.name := by
      simp [bookService, hcfg]
    simp only [step, hresolve] at hcall
    split at hcall
    · simp at hcall
    · obtain rfl := Option.some.inj hcall
      simp
  obtain ⟨flags, hcalls, hloaded⟩ := call_loaded hbegin hsecond hmid
  have hduring : ∀ i alive, flags[i]? = some alive →
      During host configs uriOk (pre ++ [.call caller name key]) mid (cfg.name, i) alive := by
    intro i alive hi
    obtain ⟨mid₁, t', hp, ht', hflag⟩ := hloaded.moment i alive hi
    refine ⟨mid₁, t', hp, by rw [execute_append, hfirst, Option.bind_some, ht'], ?_⟩
    simp only [bookService, hfound, Option.bind_some] at hflag
    split_ifs at hflag
    exact Option.some.inj hflag
  simp only [step, hcalls] at hanswer
  split_ifs at hanswer with hmore
  obtain rfl := Option.some.inj hanswer
  have hall : cfg.targets.length ≤ flags.length := by
    by_contra hlt
    simp [bookService, hfound, Nat.lt_of_not_le hlt] at hmore
  refine ⟨_, List.getLast?_concat, fun url hurl => ?_, fun hnone i hi => ?_⟩
  · simp only [bookService, hfound] at hurl
    obtain ⟨i, hi, hflag⟩ := mem_seen.mp (choice_mem hurl)
    exact ⟨i, hi, hduring i true hflag⟩
  · simp only [bookService, hfound] at hnone
    have hflag : flags[i]? = some flags[i] := List.getElem?_eq_getElem (hi.trans_le hall)
    refine hduring i false (hflag.trans (congrArg some ?_))
    rw [Bool.eq_false_iff]
    intro hup
    have hmem : cfg.targets[i] ∈ seen cfg.targets flags :=
      mem_seen.mpr ⟨i, List.getElem?_eq_getElem hi, hflag.trans (congrArg some hup)⟩
    rw [choice_none hnone] at hmem
    simp at hmem

/-- Whatever probes end meanwhile, a call answers a target only if that was up at some moment
during the call, and none only if each target was down at some moment during it. -/
theorem answer_justified {pre mid : List Event} {caller : ℕ} {name : String} {key : Option String}
    {cfg : UpstreamConfig} {s : State UpstreamPool} (hcfg : resolveConfig configs name = some cfg)
    (hrun : execute (step (poolService host configs) uriOk) (start (UpstreamPool.init configs))
      (pre ++ [.call caller name key] ++ mid ++ [.answer caller]) = some s)
    (hmid : ∀ e ∈ mid, e ≠ .answer caller) :
    ∃ answer, s.answers.getLast? = some (caller, answer) ∧
      Justified host configs uriOk cfg (pre ++ [.call caller name key]) mid answer := by
  obtain ⟨t, ht, halike⟩ := (pool_matched host configs uriOk _).1 s hrun
  rw [halike.answers]
  exact book_justified hcfg ht hmid

/-- The first of two targets is down, the second is answered. -/
theorem second_justified : ∃ answer,
    (execute (step (poolService Host.plain shippedConfigs) fun _ => true)
      (start (UpstreamPool.init shippedConfigs)) ([.round, .complete 0 (.error "timeout")] ++
        [.call 7 "default" none] ++ [.load 7, .complete 1 (.ok 204), .load 7] ++ [.answer 7])).bind
          (fun s => s.answers.getLast?) = some (7, answer) ∧
      Justified Host.plain shippedConfigs (fun _ => true)
        ⟨"default", ["http://127.0.0.1:3000", "http://127.0.0.1:3001"], "round_robin", "/health", 5⟩
        ([.round, .complete 0 (.error "timeout")] ++ [.call 7 "default" none])
        [.load 7, .complete 1 (.ok 204), .load 7] answer := by
  have hsome : (execute (step (poolService Host.plain shippedConfigs) fun _ => true)
      (start (UpstreamPool.init shippedConfigs)) ([.round, .complete 0 (.error "timeout")] ++
        [.call 7 "default" none] ++ [.load 7, .complete 1 (.ok 204), .load 7] ++
          [.answer 7])).isSome := by decide
  obtain ⟨s, hs⟩ := Option.isSome_iff_exists.mp hsome
  obtain ⟨answer, hanswer, hjustified⟩ := answer_justified rfl hs (by simp)
  exact ⟨answer, by rw [hs, Option.bind_some, hanswer], hjustified⟩

end Safety

end LuaProxy.PoolRuns
