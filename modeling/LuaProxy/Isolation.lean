import LuaProxy.ConcurrentRequests
import LuaProxy.FailClosed
import LuaProxy.Noninterference
import LuaProxy.Selection

/-! What a client of the proxy can notice of the others. Each connection has a VM of its own, so
that clients share the plugins, the flags of the targets, and whose turn it is at an upstream. -/
namespace LuaProxy.Isolation
open Text Context HookMonad Engine Upstream Handler RequestCourse Selection Transition Refinement
  Noninterference ConcurrentRequests

section Observer
variable {Src Fn Heap : Type}

/-- What gets to a connection with a step of its own. -/
inductive Input (Src Heap : Type)
  | connect
  | close
  | arrive (peer : String) (http : Http) (req : Request) (enter : Heap → Heap)
  /-- A phase runs these plugins. -/
  | plugins (live : PluginSources Src)
  /-- The pool gives this target. -/
  | target (url : Option String)
  /-- The upstream answers or does not, as `http` has it. -/
  | upstream

/-- What the upstreams and the client get from a connection. -/
inductive Output
  | request (target : String) (up : UpstreamRequest)
  | answer (outcome : Outcome)

/-- What the next step of a request depends on, besides the request. -/
def needs (host : Host) (live : PluginSources Src) (pool : UpstreamPool) (f : Flight Fn Heap) :
    Input Src Heap :=
  match f.point with
  | .transformed _ _ upstreamName =>
    .target (pool.nextUrl host upstreamName
      (some (clientAddress (headerMap host f.job.req.headers) f.job.peer))).1
  | .sent _ _ _ => .upstream
  | _ => .plugins live

def lets (f : Flight Fn Heap) (next : Flight Fn Heap ⊕ Finished Fn Heap) : List Output :=
  (match f.point with
    | .sent _ target up => [.request target up]
    | _ => []) ++
  match next with
  | .inl _ => []
  | .inr r => [.answer r.outcome]

variable {host : Host} (L : Interpreter host Src Fn Heap)

/-- What an event gives the client on a connection. -/
def given (host : Host) (c : ℕ) (s : State Src Fn Heap) : Event Src Heap → Option (Input Src Heap)
  | .reload _ => none
  | .health _ => none
  | .connect c' => if c' = c then some .connect else none
  | .close c' => if c' = c then some .close else none
  | .arrive c' peer http req enter => if c' = c then some (.arrive peer http req enter) else none
  | .advance c' =>
    if c' = c then
      match s.conns c, s.versions.getLast? with
      | .busy f, some live => some (needs host live s.pool f)
      | _, _ => none
    else none

def shown (c : ℕ) (s : State Src Fn Heap) : Event Src Heap → List Output
  | .advance c' =>
    if c' = c then
      match s.conns c, s.versions.getLast? with
      | .busy f, some live => lets f (advance L live (s.versions.length - 1) s.pool f).1
      | _, _ => []
    else []
  | _ => []

/-- Requests at one point of one course, with whatever versions and pools. -/
structure SameCourse (f g : Flight Fn Heap) : Prop where
  peer : f.job.peer = g.job.peer
  http : f.job.http = g.job.http
  req : f.job.req = g.job.req
  vm : f.vm = g.vm
  point : f.point = g.point

inductive Alike : Conn Fn Heap → Conn Fn Heap → Prop
  | closed : Alike .closed .closed
  | idle (vm : Vm Fn Heap) : Alike (.idle vm) (.idle vm)
  | busy {f g : Flight Fn Heap} (h : SameCourse f g) : Alike (.busy f) (.busy g)

/-- What a step makes of requests that are alike. -/
inductive SameNext : Flight Fn Heap ⊕ Finished Fn Heap → Flight Fn Heap ⊕ Finished Fn Heap → Prop
  | goesOn {f g : Flight Fn Heap} (h : SameCourse f g) : SameNext (.inl f) (.inl g)
  | ends {r q : Finished Fn Heap} (houtcome : r.outcome = q.outcome) (hvm : r.vm = q.vm) :
      SameNext (.inr r) (.inr q)

theorem SameCourse.symm {f g : Flight Fn Heap} (h : SameCourse f g) : SameCourse g f :=
  ⟨h.peer.symm, h.http.symm, h.req.symm, h.vm.symm, h.point.symm⟩

theorem Alike.symm {a b : Conn Fn Heap} (h : Alike a b) : Alike b a := by
  cases h with
  | closed => exact .closed
  | idle vm => exact .idle vm
  | busy h => exact .busy h.symm

theorem Alike.refl (a : Conn Fn Heap) : Alike a a := by
  cases a with
  | closed => exact .closed
  | idle vm => exact .idle vm
  | busy f => exact .busy ⟨rfl, rfl, rfl, rfl, rfl⟩

theorem lets_same {f g : Flight Fn Heap} {next next' : Flight Fn Heap ⊕ Finished Fn Heap}
    (h : SameCourse f g) (hnext : SameNext next next') : lets f next = lets g next' := by
  unfold lets
  rw [h.point]
  cases hnext with
  | goesOn _ => rfl
  | ends houtcome _ => simp only [houtcome]

end Observer

section Advance
variable {host : Host} {Src Fn Heap : Type} {L : Interpreter host Src Fn Heap}
  {live live' : PluginSources Src} {pool pool' : UpstreamPool} {f g : Flight Fn Heap}

/-- A step of a request is determined by the request and what it needs. -/
theorem advance_same (version version' : ℕ) (h : SameCourse f g)
    (hneeds : needs host live pool f = needs host live' pool' g) :
    SameNext (advance L live version pool f).1 (advance L live' version' pool' g).1 := by
  obtain ⟨⟨peer, http, req, jobVm, since⟩, found, chosenFrom, vm, point⟩ := f
  obtain ⟨⟨peer', http', req', jobVm', since'⟩, found', chosenFrom', vm', point'⟩ := g
  obtain ⟨hpeer, hhttp, hreq, hvm, hpoint⟩ := h
  dsimp only at hpeer hhttp hreq hvm hpoint
  subst hpeer hhttp hreq hvm hpoint
  cases point with
  | start =>
    obtain rfl := Input.plugins.inj hneeds
    simp only [advance]
    cases req.body with
    | error e => exact .ends rfl rfl
    | ok body =>
      dsimp only
      split
      · exact .ends rfl rfl
      · exact .goesOn ⟨rfl, rfl, rfl, rfl, rfl⟩
  | requested body ctx =>
    obtain rfl := Input.plugins.inj hneeds
    exact .goesOn ⟨rfl, rfl, rfl, rfl, rfl⟩
  | routed body ctx upstreamName =>
    obtain rfl := Input.plugins.inj hneeds
    exact .goesOn ⟨rfl, rfl, rfl, rfl, rfl⟩
  | transformed body ctx upstreamName =>
    have htarget := Input.target.inj hneeds
    simp only [advance]
    generalize pool.nextUrl host upstreamName _ = choice at htarget
    generalize pool'.nextUrl host upstreamName _ = choice' at htarget
    obtain ⟨target, rest⟩ := choice
    obtain ⟨target', rest'⟩ := choice'
    obtain rfl : target = target' := htarget
    cases target with
    | none => exact .ends rfl rfl
    | some target =>
      dsimp only
      split
      · exact .ends rfl rfl
      · exact .goesOn ⟨rfl, rfl, rfl, rfl, rfl⟩
  | sent ctx target up =>
    simp only [advance]
    cases http.send up with
    | error e => exact .ends rfl rfl
    | ok resp => exact .goesOn ⟨rfl, rfl, rfl, rfl, rfl⟩
  | answered ctx target up resp =>
    obtain rfl := Input.plugins.inj hneeds
    simp only [advance, Flight.after]
    cases finalResponse http (runOnResponse L live vm ctx).ctx resp.body with
    | ok r => exact .ends rfl rfl
    | error e => exact .ends rfl rfl

end Advance

section Steps
variable {host : Host} {Src Fn Heap : Type} {L : Interpreter host Src Fn Heap} {fresh : Vm Fn Heap}
  {c : ℕ} {s s' t t' : State Src Fn Heap} {e e' : Event Src Heap} {i : Input Src Heap}

def connection : Event Src Heap → Option ℕ
  | .reload _ => none
  | .health _ => none
  | .connect c => some c
  | .close c => some c
  | .arrive c _ _ _ _ => some c
  | .advance c => some c

theorem step_elsewhere (hs : step L fresh s e = some s') (hc : connection e ≠ some c) :
    s'.conns c = s.conns c ∧ shown L c s e = [] := by
  cases e with
  | reload srcs =>
    obtain rfl := Option.some.inj hs
    exact ⟨rfl, rfl⟩
  | health pool =>
    obtain rfl := Option.some.inj hs
    exact ⟨rfl, rfl⟩
  | advance c' =>
    have hne : c' ≠ c := fun h => hc (congrArg some h)
    refine ⟨?_, if_neg hne⟩
    simp only [step] at hs
    split at hs
    · split at hs
      · obtain rfl := Option.some.inj hs
        exact Function.update_of_ne hne.symm _ _
      · obtain rfl := Option.some.inj hs
        exact Function.update_of_ne hne.symm _ _
    · simp at hs
  | close c' =>
    have hne : c' ≠ c := fun h => hc (congrArg some h)
    obtain rfl := Option.some.inj hs
    exact ⟨Function.update_of_ne hne.symm _ _, rfl⟩
  | connect c' =>
    have hne : c' ≠ c := fun h => hc (congrArg some h)
    refine ⟨?_, rfl⟩
    simp only [step] at hs
    split at hs
    · obtain rfl := Option.some.inj hs
      exact Function.update_of_ne hne.symm _ _
    · simp at hs
  | arrive c' peer http req enter =>
    have hne : c' ≠ c := fun h => hc (congrArg some h)
    refine ⟨?_, rfl⟩
    simp only [step] at hs
    split at hs
    · obtain rfl := Option.some.inj hs
      exact Function.update_of_ne hne.symm _ _
    · simp at hs

def settle : Flight Fn Heap ⊕ Finished Fn Heap → Conn Fn Heap
  | .inl f => .busy f
  | .inr r => .idle r.vm

theorem SameNext.settle {next next' : Flight Fn Heap ⊕ Finished Fn Heap} (h : SameNext next next') :
    Alike (settle next) (settle next') := by
  cases h with
  | goesOn h => exact .busy h
  | ends houtcome hvm =>
    simp only [Isolation.settle, hvm]
    exact .idle _

/-- The step of a request, with what it needed. -/
structure Advanced (L : Interpreter host Src Fn Heap) (c : ℕ) (s s' : State Src Fn Heap)
    (f : Flight Fn Heap) (live : PluginSources Src) : Prop where
  busy : s.conns c = .busy f
  loaded : s.versions.getLast? = some live
  next : s'.conns c = settle (advance L live (s.versions.length - 1) s.pool f).1
  needed : given host c s (.advance c) = some (needs host live s.pool f)
  out : shown L c s (.advance c) = lets f (advance L live (s.versions.length - 1) s.pool f).1

theorem step_advance (hs : step L fresh s (.advance c) = some s') : ∃ f live, Advanced L c s s' f live := by
  simp only [step] at hs
  split at hs
  · rename_i f live hc hlive
    refine ⟨f, live, hc, hlive, ?_, by simp [given, hc, hlive], by simp [shown, hc, hlive]⟩
    split at hs
    · rename_i f' pool hf
      obtain rfl := Option.some.inj hs
      rw [hf]
      exact Function.update_self _ _ _
    · rename_i r pool hr
      obtain rfl := Option.some.inj hs
      rw [hr]
      exact Function.update_self _ _ _
  · simp at hs

theorem advanced_alike {f g : Flight Fn Heap} {live live' : PluginSources Src}
    (h : Alike (s.conns c) (t.conns c)) (hf : Advanced L c s s' f live) (hg : Advanced L c t t' g live')
    (hneeds : needs host live s.pool f = needs host live' t.pool g) :
    Alike (s'.conns c) (t'.conns c) ∧ shown L c s (.advance c) = shown L c t (.advance c) := by
  rw [hf.busy, hg.busy] at h
  cases h with
  | busy hsame =>
    have hnext := advance_same (L := L) (s.versions.length - 1) (t.versions.length - 1) hsame hneeds
    rw [hf.next, hg.next, hf.out, hg.out]
    exact ⟨hnext.settle, lets_same hsame hnext⟩

theorem given_same (h : given host c s e = some i) (h' : given host c t e' = some i) :
    e' = e ∧ connection e = some c := by
  cases e <;> cases e' <;> grind [given, needs, connection]

theorem given_none (hs : step L fresh s e = some s') (h : given host c s e = none) :
    connection e ≠ some c := by
  intro hc
  cases e with
  | advance c' =>
    obtain rfl := Option.some.inj hc
    obtain ⟨f, live, hadv⟩ := step_advance hs
    simp [hadv.needed] at h
  | _ => simp_all [given, connection]

theorem step_alike (h : Alike (s.conns c) (t.conns c)) (hs : step L fresh s e = some s')
    (ht : step L fresh t e = some t') (hc : connection e = some c)
    (hgiven : given host c s e = given host c t e) :
    Alike (s'.conns c) (t'.conns c) ∧ shown L c s e = shown L c t e := by
  cases e with
  | reload srcs => simp [connection] at hc
  | health pool => simp [connection] at hc
  | connect c' =>
    obtain rfl := Option.some.inj hc
    refine ⟨?_, rfl⟩
    simp only [step] at hs ht
    split at hs
    · split at ht
      · obtain rfl := Option.some.inj hs
        obtain rfl := Option.some.inj ht
        simp only [Function.update_self]
        exact .idle fresh
      · simp at ht
    · simp at hs
  | close c' =>
    obtain rfl := Option.some.inj hc
    obtain rfl := Option.some.inj hs
    obtain rfl := Option.some.inj ht
    simp only [Function.update_self]
    exact ⟨.closed, rfl⟩
  | arrive c' peer http req enter =>
    obtain rfl := Option.some.inj hc
    refine ⟨?_, rfl⟩
    simp only [step] at hs ht
    split at hs
    · rename_i vm hvm
      split at ht
      · rename_i vm' hvm'
        obtain rfl := Option.some.inj hs
        obtain rfl := Option.some.inj ht
        rw [hvm, hvm'] at h
        cases h
        simp only [Function.update_self]
        exact .busy ⟨rfl, rfl, rfl, rfl, rfl⟩
      · simp at ht
    · simp at hs
  | advance c' =>
    obtain rfl := Option.some.inj hc
    obtain ⟨f, live, hf⟩ := step_advance hs
    obtain ⟨g, live', hg⟩ := step_advance ht
    rw [hf.needed, hg.needed] at hgiven
    exact advanced_alike h hf hg (Option.some.inj hgiven)

/-- What other clients do gives a client nothing, and changes nothing for it. -/
theorem unwinds (L : Interpreter host Src Fn Heap) (fresh : Vm Fn Heap) (c : ℕ) :
    Unwinds (step L fresh) (fun _ _ => True) (given host c) (shown L c)
      (fun s t => Alike (s.conns c) (t.conns c)) where
  symm _ _ h := h.symm
  silent s t e s' h _ hs hgiven := by
    obtain ⟨hconn, hshown⟩ := step_elsewhere hs (given_none hs hgiven)
    exact ⟨hconn ▸ h, hshown⟩
  consistent s t e e' s' t' i h _ hs _ ht hgiven hgiven' := by
    obtain ⟨rfl, hc⟩ := given_same hgiven hgiven'
    exact step_alike h hs ht hc (hgiven.trans hgiven'.symm)

end Steps

section Turns
variable {host : Host} {pool pool' : UpstreamPool}

def takesTurns : Balancer → Bool
  | .roundRobin _ _ => true
  | _ => false

def Turnless (pool : UpstreamPool) : Prop :=
  ∀ name lb, pool.lookup name = some lb → takesTurns lb = false

/-- Pools with the same balancers, in whatever order. -/
def SamePool (pool pool' : UpstreamPool) : Prop := ∀ name, pool.lookup name = pool'.lookup name

theorem next_turnless {lb : Balancer} (h : takesTurns lb = false) (key : Option String) :
    (lb.next host key).2 = lb := by
  rcases lb.next_snd host key with hnext | ⟨ts, counter, counter', rfl, -⟩
  · exact hnext
  · simp [takesTurns] at h

theorem nextUrl_turnless (h : Turnless pool) (name : String) (key : Option String) :
    SamePool (pool.nextUrl host name key).2 pool := by
  intro name'
  unfold UpstreamPool.nextUrl
  split
  · rfl
  · rename_i upstream lb hres
    have hlb := resolve_lookup hres
    dsimp only
    rw [next_turnless (h _ _ hlb)]
    by_cases hname : name' = upstream
    · subst hname
      rw [AList.lookup_insert, hlb]
    · rw [AList.lookup_insert_ne hname]

theorem SamePool.nextUrl (h : SamePool pool pool') (name : String) (key : Option String) :
    (pool.nextUrl host name key).1 = (pool'.nextUrl host name key).1 := by
  have hres : pool.resolve name = pool'.resolve name := by
    unfold UpstreamPool.resolve
    rw [h name, h "default"]
  unfold UpstreamPool.nextUrl
  rw [hres]
  split <;> rfl

theorem SamePool.turnless (h : SamePool pool pool') (hpool : Turnless pool) : Turnless pool' :=
  fun name lb hlb => hpool name lb ((h name).trans hlb)

def NoTurns (configs : List UpstreamConfig) : Prop :=
  ∀ cfg ∈ configs, cfg.lb = "least_conn" ∨ cfg.lb = "consistent_hash"

theorem reset_takesTurns (lb : Balancer) : takesTurns (reset lb) = takesTurns lb := by
  cases lb <;> rfl

theorem turnless_configured {configs : List UpstreamConfig} (hconfigs : NoTurns configs)
    (h : Configured configs pool) : Turnless pool := by
  intro name lb hlb
  have hreset := h name
  rw [hlb, Option.map_some] at hreset
  obtain ⟨cfg, hcfg, hlb'⟩ := Option.map_eq_some_iff.mp hreset.symm
  have hmem : cfg ∈ configs := List.mem_reverse.mp (List.mem_of_find?_eq_some hcfg)
  rw [← reset_takesTurns, ← hlb', configured, makeBalancer]
  rcases hconfigs cfg hmem with hkind | hkind
  · simp [hkind, takesTurns]
  · simp [hkind, takesTurns]

end Turns

section Strangers
variable {host : Host} {Src Fn Heap : Type} {L : Interpreter host Src Fn Heap} {fresh : Vm Fn Heap}
  {c : ℕ} {s s' t t' : State Src Fn Heap} {e : Event Src Heap} {live : PluginSources Src}
  {pool : UpstreamPool} {f : Flight Fn Heap}

def concerns (c : ℕ) (e : Event Src Heap) : Bool :=
  match connection e with
  | some c' => c' = c
  | none => true

/-- A health check finds the upstreams of the configuration. -/
def Ordinary (e : Event Src Heap) : Prop := ∀ pool, e = .health pool → Turnless pool

/-- All that a client has to do with, in two states. -/
structure Close (c : ℕ) (s t : State Src Fn Heap) : Prop where
  conn : Alike (s.conns c) (t.conns c)
  live : s.versions.getLast? = t.versions.getLast?
  pool : SamePool s.pool t.pool
  turnless : Turnless s.pool

theorem advance_pool (version : ℕ) (h : Turnless pool) :
    SamePool (advance L live version pool f).2 pool := by
  obtain ⟨job, found, chosenFrom, vm, point⟩ := f
  cases point with
  | start =>
    simp only [advance]
    cases job.req.body with
    | error e => exact fun _ => rfl
    | ok body =>
      dsimp only
      split <;> exact fun _ => rfl
  | requested body ctx => exact fun _ => rfl
  | routed body ctx upstreamName => exact fun _ => rfl
  | transformed body ctx upstreamName =>
    have hsame := @nextUrl_turnless host pool h upstreamName
      (some (clientAddress (headerMap host job.req.headers) job.peer))
    simp only [advance]
    generalize pool.nextUrl host upstreamName _ = choice at hsame
    obtain ⟨target, rest⟩ := choice
    cases target with
    | none => exact hsame
    | some target =>
      dsimp only
      split <;> exact hsame
  | sent ctx target up =>
    simp only [advance]
    split <;> exact fun _ => rfl
  | answered ctx target up resp =>
    simp only [advance]
    split <;> exact fun _ => rfl

theorem needs_same {pool' : UpstreamPool} {g : Flight Fn Heap} (h : SameCourse f g)
    (hpool : SamePool pool pool') : needs host live pool f = needs host live pool' g := by
  unfold needs
  rw [h.point, h.req, h.peer]
  split
  · rw [hpool.nextUrl]
  · rfl
  · rfl

theorem step_shared (hs : step L fresh s e = some s') (hc : connection e ≠ none)
    (h : Turnless s.pool) : s'.versions = s.versions ∧ SamePool s'.pool s.pool := by
  cases e with
  | reload srcs => exact absurd rfl hc
  | health pool => exact absurd rfl hc
  | close c' =>
    obtain rfl := Option.some.inj hs
    exact ⟨rfl, fun _ => rfl⟩
  | connect c' =>
    simp only [step] at hs
    split at hs
    · obtain rfl := Option.some.inj hs
      exact ⟨rfl, fun _ => rfl⟩
    · simp at hs
  | arrive c' peer http req enter =>
    simp only [step] at hs
    split at hs
    · obtain rfl := Option.some.inj hs
      exact ⟨rfl, fun _ => rfl⟩
    · simp at hs
  | advance c' =>
    simp only [step] at hs
    split at hs
    · rename_i f live hconn hlive
      have hpool := @advance_pool host Src Fn Heap L live s.pool f (s.versions.length - 1) h
      split at hs
      · rename_i f' pool hf
        obtain rfl := Option.some.inj hs
        rw [hf] at hpool
        exact ⟨rfl, hpool⟩
      · rename_i r pool hr
        obtain rfl := Option.some.inj hs
        rw [hr] at hpool
        exact ⟨rfl, hpool⟩
    · simp at hs

theorem Close.enabled (h : Close c s t) (hp : concerns c e = true) (hs : step L fresh s e = some s') :
    ∃ t', step L fresh t e = some t' := by
  have hconn := h.conn
  cases e with
  | reload srcs => exact ⟨_, rfl⟩
  | health pool => exact ⟨_, rfl⟩
  | close c' => exact ⟨_, rfl⟩
  | connect c' =>
    obtain rfl : c' = c := of_decide_eq_true hp
    simp only [step] at hs ⊢
    split at hs
    · rename_i hclosed
      rw [hclosed] at hconn
      generalize t.conns c' = conn at hconn
      cases hconn
      exact ⟨_, rfl⟩
    · simp at hs
  | arrive c' peer http req enter =>
    obtain rfl : c' = c := of_decide_eq_true hp
    simp only [step] at hs ⊢
    split at hs
    · rename_i vm hidle
      rw [hidle] at hconn
      generalize t.conns c' = conn at hconn
      cases hconn
      exact ⟨_, rfl⟩
    · simp at hs
  | advance c' =>
    obtain rfl : c' = c := of_decide_eq_true hp
    obtain ⟨f, live, hf⟩ := step_advance hs
    rw [hf.busy] at hconn
    have hlive : t.versions.getLast? = some live := h.live ▸ hf.loaded
    simp only [step, hlive]
    generalize t.conns c' = conn at hconn
    cases hconn
    dsimp only
    split <;> exact ⟨_, rfl⟩

theorem Close.given (h : Close c s t) (hs : step L fresh s e = some s') (ht : step L fresh t e = some t') :
    given host c s e = given host c t e := by
  cases e with
  | advance c' =>
    by_cases hc : c' = c
    · subst hc
      obtain ⟨f, live, hf⟩ := step_advance hs
      obtain ⟨g, live', hg⟩ := step_advance ht
      have hconn := h.conn
      have hlive := h.live
      rw [hf.loaded, hg.loaded] at hlive
      obtain rfl := Option.some.inj hlive
      rw [hf.busy, hg.busy] at hconn
      rw [hf.needed, hg.needed]
      cases hconn with
      | busy hsame => rw [needs_same hsame h.pool]
    · simp [Isolation.given, hc]
  | _ => rfl

/-- Where nobody takes turns, what concerns other clients leaves all that a client has to do
with as it is. -/
theorem unwinds_turnless (L : Interpreter host Src Fn Heap) (fresh : Vm Fn Heap) (c : ℕ) :
    Unwinds (step L fresh) (fun _ e => Ordinary e) (fun _ e => if concerns c e then some e else none)
      (shown L c) (Close c) where
  symm s t h := ⟨h.conn.symm, h.live.symm, fun name => (h.pool name).symm, h.pool.turnless h.turnless⟩
  silent s t e s' h _ hs hgiven := by
    have hc : connection e ≠ none ∧ connection e ≠ some c := by
      cases hconn : connection e with
      | none => simp [concerns, hconn] at hgiven
      | some c' =>
        refine ⟨by simp, fun hc => ?_⟩
        simp [concerns, hconn, Option.some.inj hc] at hgiven
    obtain ⟨hversions, hpool⟩ := step_shared hs hc.1 h.turnless
    obtain ⟨hconn, hshown⟩ := step_elsewhere hs hc.2
    refine ⟨⟨hconn ▸ h.conn, hversions ▸ h.live, fun name => (hpool name).trans (h.pool name), ?_⟩, hshown⟩
    exact SamePool.turnless (fun name => (hpool name).symm) h.turnless
  consistent s t e e' s' t' i h hG hs _ ht hgiven hgiven' := by
    obtain rfl : e' = e := by
      split_ifs at hgiven with hp
      split_ifs at hgiven' with hp'
      rw [Option.some.inj hgiven, Option.some.inj hgiven']
    cases hconn : connection e' with
    | some c' =>
      have hp : c' = c := by
        by_contra hne
        simp [concerns, hconn, hne] at hgiven
      subst hp
      obtain ⟨halike, hshown⟩ := step_alike h.conn hs ht hconn (h.given hs ht)
      obtain ⟨hversions, hpool⟩ := step_shared hs (by simp [hconn]) h.turnless
      obtain ⟨hversions', hpool'⟩ := step_shared ht (by simp [hconn]) (h.pool.turnless h.turnless)
      refine ⟨⟨halike, by rw [hversions, hversions', h.live], fun name => ?_, ?_⟩, hshown⟩
      · rw [hpool, hpool', h.pool]
      · exact SamePool.turnless (fun name => (hpool name).symm) h.turnless
    | none =>
      cases e' with
      | reload srcs =>
        obtain rfl := Option.some.inj hs
        obtain rfl := Option.some.inj ht
        exact ⟨⟨h.conn, by simp, h.pool, h.turnless⟩, rfl⟩
      | health pool =>
        obtain rfl := Option.some.inj hs
        obtain rfl := Option.some.inj ht
        exact ⟨⟨h.conn, h.live, fun _ => rfl, hG pool rfl⟩, rfl⟩
      | _ => simp [connection] at hconn

end Strangers

section Clients
variable {host : Host} {Src Fn Heap : Type} {L : Interpreter host Src Fn Heap} {fresh : Vm Fn Heap}
  {c : ℕ} {s s' t t' : State Src Fn Heap} {es es' : List (Event Src Heap)}

/-- What a client and its upstreams get depends on nothing but what the client sends, the plugins
that its phases find, the targets that it is given and what the upstreams answer, whatever other
clients, reloads and health checks do. -/
theorem client_isolated (halike : Alike (s.conns c) (t.conns c))
    (hs : execute (step L fresh) s es = some s') (ht : execute (step L fresh) t es' = some t')
    (hsame : inputs (step L fresh) (given host c) s es = inputs (step L fresh) (given host c) t es') :
    Alike (s'.conns c) (t'.conns c) ∧
      emitted (step L fresh) (shown L c) s es = emitted (step L fresh) (shown L c) t es' := by
  have hrun := run_guarded (G := fun _ _ => True) (Run.of_execute hs) fun _ _ _ => trivial
  have hrun' := run_guarded (G := fun _ _ => True) (Run.of_execute ht) fun _ _ _ => trivial
  exact (unwinds L fresh c).runs hrun hrun' halike hsame

/-- Where no upstream takes turns, the other clients may as well not be there. -/
theorem strangers_erased {configs : List UpstreamConfig} (hconfigs : NoTurns configs)
    (hpool : Configured configs s.pool)
    (hes : ∀ e ∈ es, ∀ pool, e = .health pool → Configured configs pool)
    (hs : execute (step L fresh) s es = some s') :
    ∃ t', execute (step L fresh) s (es.filter (concerns c)) = some t' ∧
      Alike (s'.conns c) (t'.conns c) ∧ emitted (step L fresh) (shown L c) s es =
        emitted (step L fresh) (shown L c) s (es.filter (concerns c)) := by
  have hordinary : ∀ e ∈ es, ∀ _ : State Src Fn Heap, Ordinary e :=
    fun e he _ pool hpool => turnless_configured hconfigs (hes e he pool hpool)
  have hrun := run_guarded (Run.of_execute hs) hordinary
  obtain ⟨t', ht', hclose, hshown⟩ := (unwinds_turnless L fresh c).erase
    (fun _ _ _ _ h hG hp hstep => (h.enabled hp hstep).imp fun _ ht => ⟨ht, hG⟩) hrun
    ⟨Alike.refl _, rfl, fun _ => rfl, turnless_configured hconfigs hpool⟩
  exact ⟨t', ht', hclose.conn, hshown⟩

end Clients

section Pages
open Plugins FailClosed

def pageAsked (c : ℕ) : Event Plugin Heap :=
  .arrive c "127.0.0.1" (answering ⟨200, [], utf8 "ok"⟩) ⟨"GET", "/public/page", none, [], .ok []⟩ id

def pageAlone : List (Event Plugin Heap) :=
  [.connect 0, pageAsked 0, .advance 0, .advance 0, .advance 0, .advance 0, .advance 0, .advance 0]

/-- Another client is refused meanwhile, the plugins are reloaded, and that client goes away. -/
def pageBeside : List (Event Plugin Heap) :=
  [.connect 1, .connect 0, .arrive 1 "127.0.0.2" Http.down ⟨"GET", "/api/v1/data", none, [], .ok []⟩ id,
    pageAsked 0, .advance 0, .advance 1, .advance 0, .advance 0, .reload shippedSources, .advance 0,
    .close 1, .advance 0, .advance 0]

def quietState (pool : UpstreamPool) : State Plugin Closure Heap :=
  ⟨[shippedSources], pool, fun _ => .closed, []⟩

theorem page_isolated : ∃ s t,
    execute (step (shippedLua Host.plain) emptyVm) (quietState plainPool) pageAlone = some s ∧
      execute (step (shippedLua Host.plain) emptyVm) (quietState plainPool) pageBeside = some t ∧
        Alike (s.conns 0) (t.conns 0) ∧
          emitted (step (shippedLua Host.plain) emptyVm) (shown (shippedLua Host.plain) 0)
              (quietState plainPool) pageAlone =
            emitted (step (shippedLua Host.plain) emptyVm) (shown (shippedLua Host.plain) 0)
              (quietState plainPool) pageBeside := by
  have halone : (execute (step (shippedLua Host.plain) emptyVm) (quietState plainPool)
      pageAlone).isSome = true := by decide +kernel
  have hbeside : (execute (step (shippedLua Host.plain) emptyVm) (quietState plainPool)
      pageBeside).isSome = true := by decide +kernel
  obtain ⟨s, hs⟩ := Option.isSome_iff_exists.mp halone
  obtain ⟨t, ht⟩ := Option.isSome_iff_exists.mp hbeside
  have hsame : inputs (step (shippedLua Host.plain) emptyVm) (given Host.plain 0)
        (quietState plainPool) pageAlone =
      inputs (step (shippedLua Host.plain) emptyVm) (given Host.plain 0) (quietState plainPool)
        pageBeside := by with_unfolding_all rfl
  exact ⟨s, t, hs, ht, client_isolated (Alike.refl _) hs ht hsame⟩

def leastConn : List UpstreamConfig :=
  [⟨"default", ["http://127.0.0.1:3000", "http://127.0.0.1:3001"], "least_conn", "/health", 5⟩]

def firstDown : UpstreamPool :=
  (UpstreamPool.init leastConn).insert "default"
    (.leastConn [⟨"http://127.0.0.1:3000", false, 0⟩, .new "http://127.0.0.1:3001"])

/-- Two clients ask for pages, and a target goes down between the two. -/
def twoPages : List (Event Plugin Heap) :=
  [.connect 0, .connect 1, pageAsked 1, pageAsked 0, .advance 1, .advance 0, .advance 1, .advance 1,
    .advance 1, .advance 0, .advance 0, .health firstDown, .advance 0, .advance 0, .advance 1, .advance 0]

theorem page_erased : ∃ t,
    execute (step (shippedLua Host.plain) emptyVm) (quietState (UpstreamPool.init leastConn))
        (twoPages.filter (concerns 0)) = some t ∧
      emitted (step (shippedLua Host.plain) emptyVm) (shown (shippedLua Host.plain) 0)
          (quietState (UpstreamPool.init leastConn)) twoPages =
        emitted (step (shippedLua Host.plain) emptyVm) (shown (shippedLua Host.plain) 0)
          (quietState (UpstreamPool.init leastConn)) (twoPages.filter (concerns 0)) := by
  have hsome : (execute (step (shippedLua Host.plain) emptyVm)
      (quietState (UpstreamPool.init leastConn)) twoPages).isSome = true := by decide +kernel
  obtain ⟨s, hs⟩ := Option.isSome_iff_exists.mp hsome
  have hhealth : ∀ e ∈ twoPages, ∀ pool, e = .health pool → Configured leastConn pool := by
    intro e he pool hpool
    subst hpool
    simp only [twoPages, pageAsked, List.mem_cons, reduceCtorEq, Event.health.injEq,
      List.not_mem_nil, or_false, false_or] at he
    subst he
    exact (configured_init leastConn).insert rfl rfl
  obtain ⟨t, ht, -, hshown⟩ := @strangers_erased _ _ _ _ _ _ 0 _ _ _ leastConn
    (by simp [NoTurns, leastConn]) (configured_init leastConn) hhealth hs
  exact ⟨t, ht, hshown⟩

end Pages

end LuaProxy.Isolation
