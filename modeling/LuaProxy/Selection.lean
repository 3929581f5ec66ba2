import LuaProxy.Upstream
import LuaProxy.Positions

/-! Which target `next_url` chooses: the position of the choice for each balancer, and the
upstream that a name resolves to. -/
namespace LuaProxy.Selection
open Text Context Upstream Positions

section Pick

def alivePositions (ts : List Target) : List ℕ := positions Target.alive ts

def activeAt (ts : List Target) (i : ℕ) : ℕ := (ts[i]?.map Target.active).getD 0

/-- The position of the target that `next` takes. -/
def pick (host : Host) (key : Option String) : Balancer → Option ℕ
  | .roundRobin ts counter => (alivePositions ts)[counter % (alivePositions ts).length]?
  | .leastConn ts => (alivePositions ts).argmin (activeAt ts)
  | .consistentHash ts =>
    (alivePositions ts)[(host.hashKey (key.getD "default")).toNat % 2 ^ host.usizeBits %
      (alivePositions ts).length]?

theorem minByKey_eq_argmin (f : Target → ℕ) (ts : List Target) :
    Balancer.minByKey f ts = ts.argmin f := by
  induction ts with
  | nil => rfl
  | cons t ts ih =>
    rw [Balancer.minByKey, ih, List.argmin_cons]
    cases ts.argmin f with
    | none => rfl
    | some u =>
      dsimp only
      split_ifs <;> first | rfl | omega

theorem mem_alivePositions {ts : List Target} {i : ℕ} :
    i ∈ alivePositions ts ↔ ∃ t, ts[i]? = some t ∧ t.alive = true := mem_positions _

theorem length_alivePositions (ts : List Target) :
    (alivePositions ts).length = (ts.filter Target.alive).length := length_positions _ ts

theorem next_url (host : Host) (key : Option String) (lb : Balancer) :
    (lb.next host key).1 = (pick host key lb).bind fun i => lb.targets[i]?.map Target.url := by
  have hindex : ∀ (ts : List Target) (k : ℕ),
      (ts.filter Target.alive)[k % (ts.filter Target.alive).length]?.map Target.url =
        ((alivePositions ts)[k % (alivePositions ts).length]?).bind
          fun i => ts[i]?.map Target.url := by
    intro ts k
    rw [length_alivePositions, getElem?_filter, Option.map_bind]
    rfl
  have hnone : ∀ (ts : List Target) (k : ℕ), ts.filter Target.alive = [] →
      (alivePositions ts)[k]? = none := by
    intro ts k hnil
    rw [alivePositions, (positions_eq_nil _).mpr hnil, List.getElem?_nil]
  cases lb with
  | roundRobin ts counter =>
    rw [Balancer.next_roundRobin, pick, Balancer.targets]
    split_ifs with h
    · rw [hnone ts _ h, Option.bind_none]
    · exact hindex ts _
  | leastConn ts =>
    have hmin := argmin_positions Target.alive Target.active ts
    simp only [Balancer.next_leastConn, pick, Balancer.targets, minByKey_eq_argmin, hmin,
      Option.map_bind]
    rfl
  | consistentHash ts =>
    rw [Balancer.next_consistentHash, pick, Balancer.targets]
    split_ifs with h
    · rw [hnone ts _ h, Option.bind_none]
    · exact hindex ts _

def setAlive (i : ℕ) (alive : Bool) (ts : List Target) : List Target :=
  ts.modify i fun t => { t with alive }

/-- A health check stores its result in the flag of a balancer's target. -/
def storeAlive (i : ℕ) (alive : Bool) : Balancer → Balancer
  | .roundRobin ts counter => .roundRobin (setAlive i alive ts) counter
  | .leastConn ts => .leastConn (setAlive i alive ts)
  | .consistentHash ts => .consistentHash (setAlive i alive ts)

theorem alivePositions_fail (i : ℕ) (ts : List Target) :
    alivePositions (setAlive i false ts) = (alivePositions ts).filter (· != i) :=
  positions_modify Target.alive (fun _ => rfl) ts i

theorem pick_alive {host : Host} {key : Option String} {lb : Balancer} {i : ℕ}
    (h : pick host key lb = some i) : i ∈ alivePositions lb.targets := by
  cases lb with
  | leastConn ts => exact List.argmin_mem h
  | roundRobin ts counter => exact List.mem_of_getElem? h
  | consistentHash ts => exact List.mem_of_getElem? h

theorem pick_isSome {host : Host} {key : Option String} {lb : Balancer} :
    (pick host key lb).isSome ↔ ∃ t ∈ lb.targets, t.alive = true := by
  have hany : alivePositions lb.targets ≠ [] ↔ ∃ t ∈ lb.targets, t.alive = true := by
    rw [Ne, alivePositions, positions_eq_nil, List.filter_eq_nil_iff]
    push Not
    simp
  rw [← hany]
  constructor
  · intro h hnil
    obtain ⟨i, hi⟩ := Option.isSome_iff_exists.mp h
    have hmem := pick_alive hi
    simp [hnil] at hmem
  · intro h
    have hget : ∀ (ts : List Target) (k : ℕ), alivePositions ts ≠ [] →
        ((alivePositions ts)[k % (alivePositions ts).length]?).isSome = true := by
      intro ts k hne
      rw [List.getElem?_eq_getElem (Nat.mod_lt _ (List.length_pos_iff.mpr hne))]
      rfl
    cases lb with
    | roundRobin ts counter => exact hget ts counter h
    | leastConn ts =>
      rw [Option.isSome_iff_ne_none]
      exact fun hnone => h (List.argmin_eq_none.mp hnone)
    | consistentHash ts => exact hget ts _ h

theorem next_isSome (host : Host) (key : Option String) (lb : Balancer) :
    (lb.next host key).1.isSome ↔ ∃ t ∈ lb.targets, t.alive = true := by
  rw [← @pick_isSome host key, next_url]
  cases hp : pick host key lb with
  | none => rfl
  | some i =>
    obtain ⟨t, ht, -⟩ := mem_alivePositions.mp (pick_alive hp)
    simp [ht]

end Pick

section Resolve

/-- The upstream configured under a name: of several the last one counts. -/
def configFor (configs : List UpstreamConfig) (name : String) : Option UpstreamConfig :=
  configs.reverse.find? fun cfg => cfg.name = name

/-- The upstream configured under a name, or else the one named `default`. -/
def resolveConfig (configs : List UpstreamConfig) (name : String) : Option UpstreamConfig :=
  (configFor configs name).or (configFor configs "default")

def configured (cfg : UpstreamConfig) : Balancer := makeBalancer cfg.lb (cfg.targets.map Target.new)

/-- A balancer as it was made: all targets alive and idle, the counter at zero. -/
def reset : Balancer → Balancer
  | .roundRobin ts _ => .roundRobin (ts.map fun t => Target.new t.url) 0
  | .leastConn ts => .leastConn (ts.map fun t => Target.new t.url)
  | .consistentHash ts => .consistentHash (ts.map fun t => Target.new t.url)

/-- A pool made from configurations, with any alive flags and any counters since. -/
def Configured (configs : List UpstreamConfig) (pool : UpstreamPool) : Prop :=
  ∀ name, (pool.lookup name).map reset = (configFor configs name).map configured

variable {configs : List UpstreamConfig} {pool : UpstreamPool}

theorem configFor_name {name : String} {cfg : UpstreamConfig} (h : configFor configs name = some cfg) :
    cfg.name = name := by
  simpa using List.find?_some h

theorem reset_makeBalancer (lb : String) (urls : List String) :
    reset (makeBalancer lb (urls.map Target.new)) = makeBalancer lb (urls.map Target.new) := by
  have hurls : (urls.map Target.new).map (fun t => Target.new t.url) = urls.map Target.new := by
    simp [Target.new]
  unfold makeBalancer
  split_ifs <;> simp only [reset, hurls]

theorem lookup_init (configs : List UpstreamConfig) (name : String) :
    (UpstreamPool.init configs).lookup name = (configFor configs name).map configured := by
  induction configs using List.reverseRecOn with
  | nil => rfl
  | append_singleton configs cfg ih =>
    have hinit : UpstreamPool.init (configs ++ [cfg]) =
        (UpstreamPool.init configs).insert cfg.name (configured cfg) := by
      simp [UpstreamPool.init, configured]
    have hfind : configFor (configs ++ [cfg]) name =
        if cfg.name = name then some cfg else configFor configs name := by
      simp only [configFor, List.reverse_append, List.reverse_singleton, List.singleton_append,
        List.find?_cons]
      split_ifs with h <;> simp [h]
    rw [hinit, hfind]
    by_cases hname : name = cfg.name
    · subst hname
      simp
    · rw [AList.lookup_insert_ne hname, ih, if_neg (Ne.symm hname)]

theorem configured_init (configs : List UpstreamConfig) :
    Configured configs (UpstreamPool.init configs) := by
  intro name
  rw [lookup_init, Option.map_map]
  congr 1
  funext cfg
  exact reset_makeBalancer _ _

theorem Configured.insert (h : Configured configs pool) {name : String} {lb lb' : Balancer}
    (hlb : pool.lookup name = some lb) (hreset : reset lb' = reset lb) :
    Configured configs (pool.insert name lb') := by
  intro name'
  by_cases hname : name' = name
  · subst hname
    rw [AList.lookup_insert, Option.map_some, hreset, ← h, hlb, Option.map_some]
  · rw [AList.lookup_insert_ne hname, h]

theorem reset_next (host : Host) (key : Option String) (lb : Balancer) :
    reset (lb.next host key).2 = reset lb := by
  rcases lb.next_snd host key with h | ⟨ts, counter, counter', rfl, h⟩
  · rw [h]
  · rw [h]
    rfl

theorem resolve_lookup {name name' : String} {lb : Balancer}
    (h : pool.resolve name = some (name', lb)) : pool.lookup name' = some lb := by
  unfold UpstreamPool.resolve at h
  split at h
  · rename_i lb' hlb
    obtain ⟨rfl, rfl⟩ := Prod.mk.inj (Option.some.inj h)
    exact hlb
  · obtain ⟨lb', hlb, heq⟩ := Option.map_eq_some_iff.mp h
    obtain ⟨rfl, rfl⟩ := Prod.mk.inj heq
    exact hlb

theorem Configured.nextUrl (h : Configured configs pool) (host : Host) (name : String)
    (key : Option String) : Configured configs (pool.nextUrl host name key).2 := by
  unfold UpstreamPool.nextUrl
  split
  · exact h
  · rename_i name' lb hres
    exact h.insert (resolve_lookup hres) (reset_next host key lb)

theorem reset_urls (lb : Balancer) :
    (reset lb).targets.map Target.url = lb.targets.map Target.url := by
  have hurls : ∀ ts : List Target,
      (ts.map fun t => Target.new t.url).map Target.url = ts.map Target.url := by
    simp [Target.new]
  cases lb <;> exact hurls _

theorem configured_urls (cfg : UpstreamConfig) :
    (configured cfg).targets.map Target.url = cfg.targets := by
  have hurls : (cfg.targets.map Target.new).map Target.url = cfg.targets := by
    simp [Function.comp_def, Target.new]
  unfold configured makeBalancer
  split_ifs <;> exact hurls

/-- The upstream that a name resolves to, as it stands in the pool. -/
structure Resolved (configs : List UpstreamConfig) (pool : UpstreamPool) (name : String)
    (cfg : UpstreamConfig) (lb : Balancer) : Prop where
  config : resolveConfig configs name = some cfg
  balancer : pool.lookup cfg.name = some lb
  urls : lb.targets.map Target.url = cfg.targets

theorem Configured.found (h : Configured configs pool) {name : String} {lb : Balancer}
    (hlb : pool.lookup name = some lb) :
    ∃ cfg, configFor configs name = some cfg ∧ cfg.name = name ∧
      lb.targets.map Target.url = cfg.targets := by
  have hmap := h name
  rw [hlb, Option.map_some] at hmap
  obtain ⟨cfg, hcfg, hreset⟩ := Option.map_eq_some_iff.mp hmap.symm
  exact ⟨cfg, hcfg, configFor_name hcfg, by rw [← reset_urls, ← hreset, configured_urls]⟩

theorem Configured.absent (h : Configured configs pool) {name : String}
    (hnone : pool.lookup name = none) : configFor configs name = none := by
  have hmap := h name
  rw [hnone] at hmap
  exact Option.map_eq_none_iff.mp hmap.symm

/-- A name resolves in the pool to the upstream that is configured for it. -/
theorem Configured.resolve (h : Configured configs pool) (name : String) :
    (pool.resolve name = none ∧ resolveConfig configs name = none) ∨
      ∃ cfg lb, pool.resolve name = some (cfg.name, lb) ∧ Resolved configs pool name cfg lb := by
  unfold UpstreamPool.resolve resolveConfig
  cases hname : pool.lookup name with
  | some lb =>
    obtain ⟨cfg, hcfg, rfl, hurls⟩ := h.found hname
    exact Or.inr ⟨cfg, lb, rfl, by rw [resolveConfig, hcfg, Option.some_or], hname, hurls⟩
  | none =>
    have habsent := h.absent hname
    cases hdefault : pool.lookup "default" with
    | none => exact Or.inl ⟨rfl, by rw [habsent, Option.none_or, h.absent hdefault]⟩
    | some lb =>
      obtain ⟨cfg, hcfg, hcn, hurls⟩ := h.found hdefault
      refine Or.inr ⟨cfg, lb, by rw [hcn]; rfl, ?_, by rw [hcn, hdefault], hurls⟩
      rw [resolveConfig, habsent, Option.none_or, hcfg]

/-- `next_url` panics nowhere. It answers exactly if the upstream that the name resolves to
exists and has an alive target, with the URL of such a target. -/
theorem nextUrl_sound_complete (host : Host) (h : Configured configs pool) (name : String)
    (key : Option String) :
    ∃ answer, pool.tryNextUrl host name key = .ok answer ∧
      (∀ u, answer.1 = some u → ∃ cfg lb, Resolved configs pool name cfg lb ∧
        ∃ t ∈ lb.targets, t.alive = true ∧ t.url = u) ∧
      (answer.1.isSome ↔ ∃ cfg lb, Resolved configs pool name cfg lb ∧
        ∃ t ∈ lb.targets, t.alive = true) := by
  refine ⟨_, UpstreamPool.tryNextUrl_eq host pool name key, ?_, ?_⟩
  all_goals
    unfold UpstreamPool.nextUrl
    rcases h.resolve name with ⟨hnone, hcfg⟩ | ⟨cfg, lb, hres, hresolved⟩
  · simp [hnone]
  · rw [hres]
    intro u hu
    rw [next_url] at hu
    obtain ⟨i, hi, hurl⟩ := Option.bind_eq_some_iff.mp hu
    obtain ⟨t, ht, rfl⟩ := Option.map_eq_some_iff.mp hurl
    obtain ⟨t', ht', halive⟩ := mem_alivePositions.mp (pick_alive hi)
    obtain rfl := Option.some.inj (ht.symm.trans ht')
    exact ⟨cfg, lb, hresolved, t, List.mem_of_getElem? ht, halive, rfl⟩
  · rw [hnone]
    apply iff_of_false (by simp)
    rintro ⟨cfg, lb, hresolved, -⟩
    simp [hresolved.config] at hcfg
  · rw [hres]
    refine (next_isSome host key lb).trans ⟨fun halive => ⟨cfg, lb, hresolved, halive⟩, ?_⟩
    rintro ⟨cfg', lb', hresolved', halive⟩
    obtain rfl := Option.some.inj (hresolved.config.symm.trans hresolved'.config)
    obtain rfl := Option.some.inj (hresolved.balancer.symm.trans hresolved'.balancer)
    exact halive

def shippedConfigs : List UpstreamConfig :=
  [⟨"default", ["http://127.0.0.1:3000", "http://127.0.0.1:3001"], "round_robin", "/health", 5⟩,
    ⟨"api_v2", ["http://127.0.0.1:4000"], "least_conn", "/health", 10⟩]

theorem unknown_name_resolved : ∃ answer,
    (UpstreamPool.init shippedConfigs).tryNextUrl Host.plain "unknown" none = .ok answer ∧
      answer.1 = some "http://127.0.0.1:3000" ∧ ∃ cfg lb,
        Resolved shippedConfigs (UpstreamPool.init shippedConfigs) "unknown" cfg lb ∧
          ∃ t ∈ lb.targets, t.alive = true ∧ t.url = "http://127.0.0.1:3000" := by
  have hfirst : ((UpstreamPool.init shippedConfigs).tryNextUrl Host.plain "unknown" none).map
      Prod.fst = .ok (some "http://127.0.0.1:3000") := by decide
  obtain ⟨answer, hok, hsound, -⟩ :=
    nextUrl_sound_complete Host.plain (configured_init shippedConfigs) "unknown" none
  rw [hok] at hfirst
  have hurl : answer.1 = some "http://127.0.0.1:3000" := Except.ok.inj hfirst
  exact ⟨answer, hok, hurl, hsound _ hurl⟩

end Resolve

end LuaProxy.Selection
