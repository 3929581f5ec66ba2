import LuaProxy.Context

/-! Upstream selection: the balancers (`upstream/balancer.rs`) and the pool of upstreams
by name (`upstream/pool.rs`). -/
namespace LuaProxy.Upstream
open Text Context

structure UpstreamConfig where
  name : String
  targets : List String
  lb : String
  healthCheckPath : String
  healthCheckInterval : ℕ
  deriving DecidableEq, Repr

structure Target where
  url : String
  alive : Bool
  active : ℕ
  deriving DecidableEq, Repr

def Target.new (url : String) : Target := ⟨url, true, 0⟩

inductive Balancer
  | roundRobin (targets : List Target) (counter : ℕ)
  | leastConn (targets : List Target)
  | consistentHash (targets : List Target)
  deriving DecidableEq, Repr

/-- What a remainder or an index may fail with. -/
inductive Panic
  | remainderByZero
  | indexOutOfBounds
  deriving DecidableEq, Repr

def rem (a b : ℕ) : Except Panic ℕ := if b = 0 then .error .remainderByZero else .ok (a % b)

def index (ts : List Target) (i : ℕ) : Except Panic Target :=
  match ts[i]? with
  | some t => .ok t
  | none => .error .indexOutOfBounds

namespace Balancer

def targets : Balancer → List Target
  | .roundRobin ts _ => ts
  | .leastConn ts => ts
  | .consistentHash ts => ts

/-- `min_by_key`: the first of the minimal elements. -/
def minByKey (f : Target → ℕ) : List Target → Option Target
  | [] => none
  | t :: ts =>
    match minByKey f ts with
    | none => some t
    | some u => if f t ≤ f u then some t else some u

/-- `next`: the URL of the target, and the balancer after it, of which round robin has taken a
ticket. The remainder and the index fail where Rust's panic. -/
def tryNext (host : Host) (key : Option String) :
    Balancer → Except Panic (Option String × Balancer)
  | .roundRobin ts counter =>
    let alive := ts.filter Target.alive
    if alive = [] then .ok (none, .roundRobin ts counter)
    else do
      let idx ← rem counter alive.length
      let t ← index alive idx
      .ok (some t.url, .roundRobin ts ((counter + 1) % 2 ^ host.usizeBits))
  | .leastConn ts =>
    .ok ((minByKey Target.active (ts.filter Target.alive)).map Target.url, .leastConn ts)
  | .consistentHash ts =>
    let alive := ts.filter Target.alive
    if alive = [] then .ok (none, .consistentHash ts)
    else do
      let h := host.hashKey (key.getD "default")
      let idx ← rem (h.toNat % 2 ^ host.usizeBits) alive.length
      let t ← index alive idx
      .ok (some t.url, .consistentHash ts)

theorem rem_index {xs : List Target} (hne : xs ≠ []) (a : ℕ) :
    ∃ t, xs[a % xs.length]? = some t ∧ rem a xs.length = .ok (a % xs.length) ∧
      index xs (a % xs.length) = .ok t := by
  have hlength : xs.length ≠ 0 := fun h => hne (List.length_eq_zero_iff.mp h)
  have hget := List.getElem?_eq_getElem (Nat.mod_lt a (Nat.pos_of_ne_zero hlength))
  refine ⟨_, hget, if_neg hlength, ?_⟩
  rw [index, hget]

/-- No call of `next` panics: an index is computed only where a target is alive. -/
theorem tryNext_ok (host : Host) (key : Option String) (lb : Balancer) :
    ∃ r, lb.tryNext host key = .ok r := by
  cases lb with
  | leastConn ts => exact ⟨_, rfl⟩
  | roundRobin ts counter =>
    by_cases hne : ts.filter Target.alive = []
    · exact ⟨_, if_pos hne⟩
    · obtain ⟨t, -, hrem, hget⟩ := rem_index hne counter
      exact ⟨_, by simp only [tryNext, if_neg hne, hrem, hget, bind, Except.bind]; rfl⟩
  | consistentHash ts =>
    by_cases hne : ts.filter Target.alive = []
    · exact ⟨_, if_pos hne⟩
    · obtain ⟨t, -, hrem, hget⟩ :=
        rem_index hne ((host.hashKey (key.getD "default")).toNat % 2 ^ host.usizeBits)
      exact ⟨_, by simp only [tryNext, if_neg hne, hrem, hget, bind, Except.bind]; rfl⟩

/-- What `next` answers and leaves behind. -/
def next (host : Host) (key : Option String) (lb : Balancer) : Option String × Balancer :=
  match h : lb.tryNext host key with
  | .ok r => r
  | .error _ => absurd (tryNext_ok host key lb) (by simp [h])

theorem tryNext_eq (host : Host) (key : Option String) (lb : Balancer) :
    lb.tryNext host key = .ok (lb.next host key) := by
  unfold next
  split
  · assumption
  · rename_i h
    exact absurd (tryNext_ok host key lb) (by simp [h])

theorem next_eq {host : Host} {key : Option String} {lb : Balancer} {r : Option String × Balancer}
    (h : lb.tryNext host key = .ok r) : lb.next host key = r :=
  Except.ok.inj ((tryNext_eq host key lb).symm.trans h)

theorem next_roundRobin (host : Host) (key : Option String) (ts : List Target) (counter : ℕ) :
    (roundRobin ts counter).next host key =
      if ts.filter Target.alive = [] then (none, .roundRobin ts counter)
      else ((ts.filter Target.alive)[counter % (ts.filter Target.alive).length]?.map Target.url,
        .roundRobin ts ((counter + 1) % 2 ^ host.usizeBits)) := by
  apply next_eq
  split_ifs with hne
  · exact if_pos hne
  · obtain ⟨t, ht, hrem, hget⟩ := rem_index hne counter
    simp only [tryNext, if_neg hne, hrem, hget, ht, bind, Except.bind, Option.map_some]

theorem next_leastConn (host : Host) (key : Option String) (ts : List Target) :
    (leastConn ts).next host key =
      ((minByKey Target.active (ts.filter Target.alive)).map Target.url, .leastConn ts) :=
  next_eq rfl

theorem next_consistentHash (host : Host) (key : Option String) (ts : List Target) :
    (consistentHash ts).next host key =
      if ts.filter Target.alive = [] then (none, .consistentHash ts)
      else ((ts.filter Target.alive)[(host.hashKey (key.getD "default")).toNat %
          2 ^ host.usizeBits % (ts.filter Target.alive).length]?.map Target.url,
        .consistentHash ts) := by
  apply next_eq
  split_ifs with hne
  · exact if_pos hne
  · obtain ⟨t, ht, hrem, hget⟩ :=
      rem_index hne ((host.hashKey (key.getD "default")).toNat % 2 ^ host.usizeBits)
    simp only [tryNext, if_neg hne, hrem, hget, ht, bind, Except.bind, Option.map_some]

theorem next_snd (host : Host) (key : Option String) (lb : Balancer) :
    (lb.next host key).2 = lb ∨ ∃ ts counter counter', lb = .roundRobin ts counter ∧
      (lb.next host key).2 = .roundRobin ts counter' := by
  cases lb with
  | leastConn ts => exact Or.inl (by rw [next_leastConn])
  | roundRobin ts counter =>
    refine Or.inr ⟨ts, counter, ?_⟩
    rw [next_roundRobin]
    split_ifs
    · exact ⟨_, rfl, rfl⟩
    · exact ⟨_, rfl, rfl⟩
  | consistentHash ts =>
    rw [next_consistentHash]
    split_ifs
    · exact Or.inl rfl
    · exact Or.inl rfl

end Balancer

/-- Unknown names mean round robin. -/
def makeBalancer (lb : String) (targets : List Target) : Balancer :=
  if lb = "least_conn" then .leastConn targets
  else if lb = "consistent_hash" then .consistentHash targets
  else .roundRobin targets 0

abbrev UpstreamPool := HashMap Balancer

namespace UpstreamPool

def init (configs : List UpstreamConfig) : UpstreamPool :=
  configs.foldl
    (fun map cfg => map.insert cfg.name (makeBalancer cfg.lb (cfg.targets.map Target.new))) ∅

/-- The upstream configured under a name, or the one named `default`. -/
def resolve (pool : UpstreamPool) (name : String) : Option (String × Balancer) :=
  match pool.lookup name with
  | some lb => some (name, lb)
  | none => (pool.lookup "default").map fun lb => ("default", lb)

def tryNextUrl (host : Host) (pool : UpstreamPool) (name : String) (key : Option String) :
    Except Panic (Option String × UpstreamPool) :=
  match pool.resolve name with
  | none => .ok (none, pool)
  | some (name', lb) => do
    let r ← lb.tryNext host key
    .ok (r.1, pool.insert name' r.2)

/-- What `next_url` answers and leaves behind. -/
def nextUrl (host : Host) (pool : UpstreamPool) (name : String) (key : Option String) :
    Option String × UpstreamPool :=
  match pool.resolve name with
  | none => (none, pool)
  | some (name', lb) =>
    let r := lb.next host key
    (r.1, pool.insert name' r.2)

theorem tryNextUrl_eq (host : Host) (pool : UpstreamPool) (name : String) (key : Option String) :
    pool.tryNextUrl host name key = .ok (pool.nextUrl host name key) := by
  unfold tryNextUrl nextUrl
  split
  · rfl
  · rename_i name' lb _
    simp only [Balancer.tryNext_eq, bind, Except.bind]

end UpstreamPool

end LuaProxy.Upstream
