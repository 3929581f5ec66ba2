import LuaProxy.ConcurrentRequests
import LuaProxy.Refinement

/-! Requests under way at the same time, beside a proxy that serves one request after the
other. A request takes effect at once where it chooses its target, or where it ends without
one; until then the pool and the other connections see nothing of it. -/
namespace LuaProxy.Linearizable
open Text Context HookMonad Engine Upstream Handler RequestCourse Transition Refinement ConcurrentRequests

/-- What a client and the upstreams see of a request. -/
structure Answer where
  outcome : Outcome
  target : Option String
  sent : Option UpstreamRequest

section Sequential
variable {Src Fn Heap : Type}

/-- A proxy that serves each request whole. -/
structure SeqState (Src Fn Heap : Type) where
  srcs : PluginSources Src
  pool : UpstreamPool
  /-- The VM of each connection that is there. -/
  vms : ℕ → Option (Vm Fn Heap)
  /-- What was answered, and to whom. -/
  log : List (ℕ × Answer)

inductive SeqEvent (Src Heap : Type)
  | reload (srcs : PluginSources Src)
  | health (pool : UpstreamPool)
  | connect (c : ℕ)
  | close (c : ℕ)
  | request (c : ℕ) (peer : String) (http : Http) (req : Request) (enter : Heap → Heap)

variable {host : Host} (L : Interpreter host Src Fn Heap)

def whole (srcs : PluginSources Src) (pool : UpstreamPool) (job : Job Fn Heap) : Handled Fn Heap :=
  handleRequest L job.http (fun _ => srcs) job.peer job.req job.vm pool ∅

def answerOf (r : Handled Fn Heap) : Answer :=
  ⟨r.outcome, r.target, r.sent⟩

def seqStep (fresh : Vm Fn Heap) (q : SeqState Src Fn Heap) :
    SeqEvent Src Heap → Option (SeqState Src Fn Heap)
  | .reload srcs => some { q with srcs }
  | .health pool => some { q with pool }
  | .connect c =>
    match q.vms c with
    | none => some { q with vms := Function.update q.vms c (some fresh) }
    | some _ => none
  | .close c => some { q with vms := Function.update q.vms c none }
  | .request c peer http req enter =>
    match q.vms c with
    | none => none
    | some vm =>
      let r := handleRequest L http (fun _ => q.srcs) peer req { vm with heap := enter vm.heap } q.pool ∅
      some { q with
        pool := r.pool
        vms := Function.update q.vms c (some r.vm)
        log := q.log ++ [(c, answerOf r)] }

end Sequential

section Watching
variable {Src Fn Heap : Type}

/-- A request that has chosen its target has taken effect. -/
def settled : Point → Bool
  | .sent _ _ _ | .answered _ _ _ _ => true
  | _ => false

/-- Whether a step is the one with which a request takes effect. -/
def settles (f : Flight Fn Heap) : Flight Fn Heap ⊕ Finished Fn Heap → Bool
  | .inl f' => !settled f.point && settled f'.point
  | .inr _ => !settled f.point

/-- A run, and what somebody outside writes down of it. -/
structure Watched (Src Fn Heap : Type) where
  state : State Src Fn Heap
  /-- What had changed outside for the VM of the last request on each connection. -/
  enters : ℕ → Heap → Heap
  /-- What was answered, and to whom. -/
  answers : List (ℕ × Answer)
  /-- The connections that closed while a request of theirs was under way. -/
  cut : List ℕ

variable {host : Host} (L : Interpreter host Src Fn Heap) (fresh : Vm Fn Heap)

def watch (w : Watched Src Fn Heap) (e : Event Src Heap) : Option (Watched Src Fn Heap) :=
  (step L fresh w.state e).map fun s =>
    { state := s
      enters := match e with
        | .arrive c _ _ _ enter => Function.update w.enters c enter
        | _ => w.enters
      answers := match e with
        | .advance c => w.answers ++ (s.done.drop w.state.done.length).map fun r =>
            (c, ⟨r.outcome, r.target, r.sent⟩)
        | _ => w.answers
      cut := match e with
        | .close c =>
          match w.state.conns c with
          | .busy _ => c :: w.cut
          | _ => w.cut
        | _ => w.cut }

/-- What an event is to the proxy that serves each request whole. -/
def commits (w : Watched Src Fn Heap) : Event Src Heap → List (SeqEvent Src Heap)
  | .reload srcs => [.reload srcs]
  | .health pool => [.health pool]
  | .connect c => [.connect c]
  | .close c => [.close c]
  | .arrive _ _ _ _ _ => []
  | .advance c =>
    match w.state.conns c, w.state.versions.getLast? with
    | .busy f, some live =>
      if settles f (advance L live (w.state.versions.length - 1) w.state.pool f).1 then
        [.request c f.job.peer f.job.http f.job.req (w.enters c)]
      else []
    | _, _ => []

/-- A reload finds no request between two of its phases. -/
def Whole (w : Watched Src Fn Heap) (e : Event Src Heap) : Prop :=
  ∀ srcs, e = .reload srcs → ∀ c f, w.state.conns c = .busy f → f.found = []

end Watching

section Advance
variable {host : Host} {Src Fn Heap : Type} {L : Interpreter host Src Fn Heap}
  {live : PluginSources Src} {pool : UpstreamPool} {f : Flight Fn Heap}

/-- A request that has not taken effect goes on without it, or takes effect, or ends. -/
inductive Settles (L : Interpreter host Src Fn Heap) (live : PluginSources Src) (pool : UpstreamPool)
    (job : Job Fn Heap) : (Flight Fn Heap ⊕ Finished Fn Heap) × UpstreamPool → Prop
  | goesOn {f : Flight Fn Heap} (hjob : f.job = job) (hset : settled f.point = false) :
      Settles L live pool job (.inl f, pool)
  | effect {f : Flight Fn Heap} (hjob : f.job = job) (hset : settled f.point = true)
      (hpool : f.pool = pool) : Settles L live pool job (.inl f, (whole L live pool job).pool)
  | ends {r : Finished Fn Heap}
      (hanswer : answerOf (whole L live pool job) = ⟨r.outcome, r.target, r.sent⟩)
      (hvm : (whole L live pool job).vm = r.vm) :
      Settles L live pool job (.inr r, (whole L live pool job).pool)

/-- A request that has taken effect goes on, or ends, and the pool stays as it is. -/
inductive Follows (L : Interpreter host Src Fn Heap) (live : PluginSources Src) (pool : UpstreamPool)
    (f : Flight Fn Heap) : (Flight Fn Heap ⊕ Finished Fn Heap) × UpstreamPool → Prop
  | goesOn {f' : Flight Fn Heap} (hjob : f'.job = f.job) (hset : settled f'.point = true)
      (hpool : f'.pool = f.pool) : Follows L live pool f (.inl f', pool)
  | ends {r : Finished Fn Heap}
      (hanswer : answerOf (whole L live f.pool f.job) = ⟨r.outcome, r.target, r.sent⟩)
      (hvm : (whole L live f.pool f.job).vm = r.vm) : Follows L live pool f (.inr r, pool)

theorem Settles.of_course {job : Job Fn Heap} {r : Finished Fn Heap} {pool' : UpstreamPool}
    {counters : Counters} (h : Course L job.http (fun _ => live) job.peer job.req job.vm pool ∅
      ⟨r.outcome, r.target, r.sent, r.vm, pool', counters⟩) :
    Settles L live pool job (.inr r, pool') := by
  have heq : whole L live pool job = ⟨r.outcome, r.target, r.sent, r.vm, pool', counters⟩ := h.eq
  have hpool : pool' = (whole L live pool job).pool := by rw [heq]
  rw [hpool]
  exact .ends (by rw [heq]; rfl) (by rw [heq])

theorem whole_pool {job : Job Fn Heap} {body : Bytes} {target : String}
    (h : Routed L (fun _ => live) job.peer job.req job.vm pool body target) :
    (whole L live pool job).pool = (chosen L (fun _ => live) job.peer job.req body job.vm pool).2 := by
  rw [whole, handleRequest_routed h]
  simp only [forward]
  split
  · rfl
  · split
    · rfl
    · split <;> rfl

theorem advance_settles (upto : ℕ) (pool : UpstreamPool)
    (h : Stands L (fun _ => live) f.job f.pool f.vm f.point) (hset : settled f.point = false) :
    Settles L live pool f.job (advance L live upto pool f) := by
  obtain ⟨job, found, chosenFrom, vm, point⟩ := f
  dsimp only at h hset ⊢
  cases h with
  | start =>
    simp only [advance]
    cases hbody : job.req.body with
    | error e => exact .of_course (.unread hbody)
    | ok body =>
      dsimp only
      cases hrej : (runOnRequest L live job.vm (requestCtx host job.req job.peer body)).ctx.rejected with
      | some r => exact .of_course (.rejected hbody hrej)
      | none => exact .goesOn rfl rfl
  | requested hbody hpass => exact .goesOn rfl rfl
  | routed hbody hpass => exact .goesOn rfl rfl
  | transformed hbody hpass =>
    rename_i body
    simp only [advance]
    cases hc : pool.nextUrl host ((routeOf (routePhase L (fun _ => live) job.peer job.req body
      job.vm)).getD "default") (some (clientAddress (headerMap host job.req.headers) job.peer)) with
    | mk target pool' =>
      have hchosen : chosen L (fun _ => live) job.peer job.req body job.vm pool = (target, pool') := hc
      have hpool : pool' = (chosen L (fun _ => live) job.peer job.req body job.vm pool).2 := by
        rw [hchosen]
      cases target with
      | none =>
        dsimp only
        rw [hpool]
        exact .of_course (.noTarget hbody hpass (by rw [hchosen]))
      | some target =>
        have hrouted : Routed L (fun _ => live) job.peer job.req job.vm pool body target :=
          ⟨hbody, hpass, by rw [hchosen]⟩
        dsimp only
        split
        · rename_i e hbuild
          rw [hpool]
          exact .of_course (.unbuilt hrouted hbuild)
        · rename_i up hbuild
          rw [hpool, ← whole_pool hrouted]
          exact .effect rfl rfl rfl
  | sent hrouted hbuild => simp [settled] at hset
  | answered hrouted hbuild hsend => simp [settled] at hset

theorem Follows.of_course {r : Finished Fn Heap} {pool' : UpstreamPool}
    {counters : Counters} (h : Course L f.job.http (fun _ => live) f.job.peer f.job.req f.job.vm f.pool ∅
      ⟨r.outcome, r.target, r.sent, r.vm, pool', counters⟩) : Follows L live pool f (.inr r, pool) := by
  have heq : whole L live f.pool f.job = ⟨r.outcome, r.target, r.sent, r.vm, pool', counters⟩ := h.eq
  exact .ends (by rw [heq]; rfl) (by rw [heq])

theorem advance_follows (upto : ℕ) (pool : UpstreamPool)
    (h : Stands L (fun _ => live) f.job f.pool f.vm f.point) (hset : settled f.point = true) :
    Follows L live pool f (advance L live upto pool f) := by
  obtain ⟨job, found, chosenFrom, vm, point⟩ := f
  dsimp only at h hset ⊢
  cases h with
  | sent hrouted hbuild =>
    rename_i body target up
    simp only [advance]
    cases hsend : job.http.send up with
    | error e => exact .of_course (.unanswered hrouted hbuild hsend)
    | ok resp => exact .goesOn rfl rfl rfl
  | answered hrouted hbuild hsend =>
    rename_i body target up resp
    simp only [advance, Flight.after]
    cases hfinal : finalResponse job.http (responsePhase L (fun _ => live) job.peer job.req body job.vm
      resp).ctx resp.body with
    | ok r =>
      have hrun := hfinal
      unfold responsePhase at hrun
      rw [hrun]
      exact .of_course (.answered hrouted hbuild hsend hfinal)
    | error e =>
      have hrun := hfinal
      unfold responsePhase at hrun
      rw [hrun]
      exact .of_course (.unassembled hrouted hbuild hsend hfinal)
  | _ => simp [settled] at hset

end Advance

section Related
variable {host : Host} {Src Fn Heap : Type} (L : Interpreter host Src Fn Heap)

def answersTo (c : ℕ) (log : List (ℕ × Answer)) : List Answer :=
  (log.filter fun p => p.1 = c).map Prod.snd

/-- The answer a request that has taken effect will get. -/
def pending (srcs : PluginSources Src) : Conn Fn Heap → List Answer
  | .busy f => if settled f.point then [answerOf (whole L srcs f.pool f.job)] else []
  | _ => []

/-- The VM that the proxy which serves requests whole has for a connection. -/
inductive Keeps (srcs : PluginSources Src) (enter : Heap → Heap) :
    Conn Fn Heap → Option (Vm Fn Heap) → Prop
  | closed : Keeps srcs enter .closed none
  | idle (vm : Vm Fn Heap) : Keeps srcs enter (.idle vm) (some vm)
  | waiting {f : Flight Fn Heap} {vm : Vm Fn Heap} (hset : settled f.point = false)
      (hvm : f.job.vm = { vm with heap := enter vm.heap }) : Keeps srcs enter (.busy f) (some vm)
  | effect {f : Flight Fn Heap} (hset : settled f.point = true) :
      Keeps srcs enter (.busy f) (some (whole L srcs f.pool f.job).vm)

/-- Both proxies told a connection the same, up to what it did not stay for. -/
structure Told (cut : Prop) (answers log : List Answer) : Prop where
  sub : answers.Sublist log
  eq : ¬ cut → answers = log

structure Related (w : Watched Src Fn Heap) (q : SeqState Src Fn Heap) : Prop where
  inv : Inv L w.state
  srcs : w.state.versions.getLast? = some q.srcs
  pool : q.pool = w.state.pool
  /-- No phase of a request under way found an older version. -/
  found : ∀ c f, w.state.conns c = .busy f → ∀ v ∈ f.found, v = w.state.versions.length - 1
  keeps : ∀ c, Keeps L q.srcs (w.enters c) (w.state.conns c) (q.vms c)
  told : ∀ c, Told (c ∈ w.cut) (answersTo c w.answers ++ pending L q.srcs (w.state.conns c))
    (answersTo c q.log)

end Related

section Simulation
variable {host : Host} {Src Fn Heap : Type} {L : Interpreter host Src Fn Heap} {fresh : Vm Fn Heap}
  {w w' : Watched Src Fn Heap} {q : SeqState Src Fn Heap} {srcs : PluginSources Src} {c : ℕ}
  {log : List (ℕ × Answer)} {f : Flight Fn Heap}

theorem answersTo_snoc (a : Answer) : answersTo c (log ++ [(c, a)]) = answersTo c log ++ [a] := by
  simp [answersTo]

theorem answersTo_snoc_ne {c' : ℕ} (hc : c' ≠ c) (a : Answer) :
    answersTo c' (log ++ [(c, a)]) = answersTo c' log := by
  simp [answersTo, hc.symm]

theorem Told.append {cut : Prop} {answers l : List Answer} (h : Told cut answers l) (rest : List Answer) :
    Told cut (answers ++ rest) (l ++ rest) :=
  ⟨h.sub.append_right rest, fun hcut => by rw [h.eq hcut]⟩

theorem Told.cut {cut cut' : Prop} {answers rest l : List Answer} (h : Told cut (answers ++ rest) l)
    (hcut : cut → cut') (hrest : ¬ cut' → rest = []) : Told cut' answers l := by
  refine ⟨(List.sublist_append_left answers rest).trans h.sub, fun hc => ?_⟩
  rw [← h.eq fun hcut' => hc (hcut hcut'), hrest hc, List.append_nil]

theorem pending_unsettled (hset : settled f.point = false) : pending L srcs (.busy f) = [] := by
  simp [pending, hset]

theorem pending_settled (hset : settled f.point = true) :
    pending L srcs (.busy f) = [answerOf (whole L srcs f.pool f.job)] := by
  simp [pending, hset]

theorem unsettled_of_nil {versions : List (PluginSources Src)} {upto : ℕ}
    (h : FlightOk L versions upto f) (hf : f.found = []) : settled f.point = false := by
  have hphases := h.phases
  cases hp : f.point with
  | sent ctx target up => simp [hf, hp, Point.phases] at hphases
  | answered ctx target up resp => simp [hf, hp, Point.phases] at hphases
  | _ => rfl

theorem Related.stands (h : Related L w q) (hc : w.state.conns c = .busy f) :
    Stands L (fun _ => q.srcs) f.job f.pool f.vm f.point := by
  refine (h.inv.flights c f hc).stands _ fun hook v hv => ?_
  rw [h.found c f hc v (List.mem_of_getElem? hv), ← List.getLast?_eq_getElem?, h.srcs]

theorem Keeps.reload {enter : Heap → Heap} {conn : Conn Fn Heap} {vm : Option (Vm Fn Heap)}
    {new : PluginSources Src} (h : Keeps L srcs enter conn vm)
    (hun : ∀ f, conn = .busy f → settled f.point = false) : Keeps L new enter conn vm := by
  cases h with
  | closed => exact .closed
  | idle vm => exact .idle vm
  | waiting hset hvm => exact .waiting hset hvm
  | effect hset =>
    rw [hun _ rfl] at hset
    simp at hset

theorem pending_nil {conn : Conn Fn Heap} (hun : ∀ f, conn = .busy f → settled f.point = false) :
    pending L srcs conn = [] := by
  cases conn with
  | busy f => exact pending_unsettled (hun f rfl)
  | _ => rfl

theorem Related.reload (h : Related L w q) (hw : Whole w (.reload srcs))
    (hs : watch L fresh w (.reload srcs) = some w') : Related L w' { q with srcs } := by
  have hnil := hw srcs rfl
  obtain ⟨s, hstep, rfl⟩ := Option.map_eq_some_iff.mp hs
  have hinv := inv_step hstep h.inv
  obtain rfl := Option.some.inj hstep
  have hun : ∀ c f, w.state.conns c = .busy f → settled f.point = false := fun c f hc =>
    unsettled_of_nil (h.inv.flights c f hc) (hnil c f hc)
  refine ⟨hinv, by simp, h.pool, fun c f hc v hv => ?_, fun c => ?_, fun c => ?_⟩
  · rw [hnil c f hc] at hv
    simp at hv
  · exact (h.keeps c).reload (hun c)
  · have htold := h.told c
    rw [pending_nil (hun c)] at htold
    dsimp only
    rwa [pending_nil (hun c)]

/-- A step on one connection leaves the others alone. -/
structure Apart (w w' : Watched Src Fn Heap) (q q' : SeqState Src Fn Heap) (c : ℕ) : Prop where
  conns : w'.state.conns c = w.state.conns c
  vms : q'.vms c = q.vms c
  enters : w'.enters c = w.enters c
  answers : answersTo c w'.answers = answersTo c w.answers
  log : answersTo c q'.log = answersTo c q.log
  cut : c ∈ w'.cut ↔ c ∈ w.cut

theorem Related.on {q' : SeqState Src Fn Heap} (h : Related L w q) (hinv : Inv L w'.state)
    (hversions : w'.state.versions = w.state.versions) (hsrcs : q'.srcs = q.srcs)
    (hpool : q'.pool = w'.state.pool) (hapart : ∀ c', c' ≠ c → Apart w w' q q' c')
    (hfound : ∀ f, w'.state.conns c = .busy f → ∀ v ∈ f.found, v = w.state.versions.length - 1)
    (hkeeps : Keeps L q.srcs (w'.enters c) (w'.state.conns c) (q'.vms c))
    (htold : Told (c ∈ w'.cut) (answersTo c w'.answers ++ pending L q.srcs (w'.state.conns c))
      (answersTo c q'.log)) : Related L w' q' := by
  refine ⟨hinv, by rw [hversions, hsrcs, h.srcs], hpool, fun c' f hc => ?_, fun c' => ?_, fun c' => ?_⟩
  · rw [hversions]
    by_cases heq : c' = c
    · subst heq
      exact hfound f hc
    · rw [(hapart c' heq).conns] at hc
      exact h.found c' f hc
  · rw [hsrcs]
    by_cases heq : c' = c
    · subst heq
      exact hkeeps
    · obtain ⟨hconns, hvms, henters, -, -, -⟩ := hapart c' heq
      rw [hconns, hvms, henters]
      exact h.keeps c'
  · rw [hsrcs]
    by_cases heq : c' = c
    · subst heq
      exact htold
    · obtain ⟨hconns, -, -, hanswers, hlog, hcut⟩ := hapart c' heq
      rw [hconns, hanswers, hlog, hcut]
      exact h.told c'

theorem Related.connect (h : Related L w q) (hs : watch L fresh w (.connect c) = some w') :
    ∃ q', seqStep L fresh q (.connect c) = some q' ∧ Related L w' q' := by
  obtain ⟨s, hstep, rfl⟩ := Option.map_eq_some_iff.mp hs
  have hinv := inv_step hstep h.inv
  have hkeeps := h.keeps c
  have htold := h.told c
  simp only [step] at hstep
  cases hconn : w.state.conns c with
  | closed =>
    rw [hconn] at hkeeps hstep htold
    obtain rfl := Option.some.inj hstep
    have hvm : q.vms c = none := by
      generalize q.vms c = vm at hkeeps
      cases hkeeps
      rfl
    refine ⟨{ q with vms := Function.update q.vms c (some fresh) }, by simp [seqStep, hvm], ?_⟩
    refine h.on (c := c) hinv rfl rfl h.pool (fun c' hc => ?_) ?_ ?_ ?_
    · exact ⟨by simp [hc], by simp [hc], rfl, rfl, rfl, Iff.rfl⟩
    · simp
    · simp only [Function.update_self]
      exact .idle fresh
    · simpa [pending] using htold
  | _ =>
    rw [hconn] at hstep
    simp at hstep

theorem Related.health (h : Related L w q) {pool : UpstreamPool}
    (hs : watch L fresh w (.health pool) = some w') : Related L w' { q with pool } := by
  obtain ⟨s, hstep, rfl⟩ := Option.map_eq_some_iff.mp hs
  have hinv := inv_step hstep h.inv
  obtain rfl := Option.some.inj hstep
  exact ⟨hinv, h.srcs, rfl, h.found, h.keeps, h.told⟩

theorem Related.close (h : Related L w q) (hs : watch L fresh w (.close c) = some w') :
    Related L w' { q with vms := Function.update q.vms c none } := by
  obtain ⟨s, hstep, rfl⟩ := Option.map_eq_some_iff.mp hs
  have hinv := inv_step hstep h.inv
  have htold := h.told c
  obtain rfl := Option.some.inj hstep
  refine h.on (c := c) hinv rfl rfl h.pool (fun c' hc => ?_) ?_ ?_ ?_
  · refine ⟨by simp [hc], by simp [hc], rfl, rfl, rfl, ?_⟩
    dsimp only
    split
    · simp [hc]
    · exact Iff.rfl
  · simp
  · simp only [Function.update_self]
    exact .closed
  · simp only [Function.update_self, pending, List.append_nil]
    refine htold.cut (fun hcut => ?_) fun hcut => ?_
    · split
      · exact List.mem_cons_of_mem _ hcut
      · exact hcut
    · cases hconn : w.state.conns c with
      | busy f => simp [hconn] at hcut
      | _ => rfl

theorem Related.arrive (h : Related L w q) {peer : String} {http : Http} {req : Request}
    {enter : Heap → Heap} (hs : watch L fresh w (.arrive c peer http req enter) = some w') :
    Related L w' q := by
  obtain ⟨s, hstep, rfl⟩ := Option.map_eq_some_iff.mp hs
  have hinv := inv_step hstep h.inv
  have hkeeps := h.keeps c
  have htold := h.told c
  simp only [step] at hstep
  cases hconn : w.state.conns c with
  | idle vm =>
    rw [hconn] at hkeeps hstep htold
    obtain rfl := Option.some.inj hstep
    refine h.on (c := c) hinv rfl rfl h.pool (fun c' hc => ?_) (fun f hf v hv => ?_) ?_ ?_
    · exact ⟨by simp [hc], rfl, by simp [hc], rfl, rfl, Iff.rfl⟩
    · simp only [Function.update_self] at hf
      obtain rfl := Conn.busy.inj hf
      simp at hv
    · have hvm : q.vms c = some vm := by
        generalize q.vms c = kept at hkeeps
        cases hkeeps
        rfl
      simp only [Function.update_self, hvm]
      exact .waiting rfl rfl
    · simpa [pending, settled] using htold
  | _ =>
    rw [hconn] at hstep
    simp at hstep

theorem advance_found {live : PluginSources Src} {upto : ℕ} {pool pool' : UpstreamPool}
    {f' : Flight Fn Heap} (h : advance L live upto pool f = (.inl f', pool'))
    (hfound : ∀ v ∈ f.found, v = upto) : ∀ v ∈ f'.found, v = upto := by
  have hnew : f'.found = f.found ∨ f'.found = f.found ++ [upto] := by
    simp only [advance, Flight.after] at h
    grind
  rcases hnew with hnew | hnew
  · rwa [hnew]
  · intro v hv
    rw [hnew] at hv
    rcases List.mem_append.mp hv with hv | hv
    · exact hfound v hv
    · exact List.mem_singleton.mp hv

section Advancing
variable {live : PluginSources Src} {pool : UpstreamPool}

theorem watch_inl {f' : Flight Fn Heap} (hconn : w.state.conns c = .busy f)
    (hlive : w.state.versions.getLast? = some live)
    (ha : advance L live (w.state.versions.length - 1) w.state.pool f = (.inl f', pool))
    (hs : watch L fresh w (.advance c) = some w') :
    w' = { w with
      state := { w.state with pool, conns := Function.update w.state.conns c (.busy f') } } := by
  simp only [watch, step, hconn, hlive, ha, Option.map_some, List.drop_length, List.map_nil,
    List.append_nil] at hs
  exact (Option.some.inj hs).symm

theorem watch_inr {r : Finished Fn Heap} (hconn : w.state.conns c = .busy f)
    (hlive : w.state.versions.getLast? = some live)
    (ha : advance L live (w.state.versions.length - 1) w.state.pool f = (.inr r, pool))
    (hs : watch L fresh w (.advance c) = some w') :
    w' = { w with
      state := { w.state with
        pool
        conns := Function.update w.state.conns c (.idle r.vm)
        done := w.state.done ++ [r] }
      answers := w.answers ++ [(c, ⟨r.outcome, r.target, r.sent⟩)] } := by
  simp only [watch, step, hconn, hlive, ha, Option.map_some, List.drop_left, List.map_cons,
    List.map_nil] at hs
  exact (Option.some.inj hs).symm

theorem commits_advance (hconn : w.state.conns c = .busy f)
    (hlive : w.state.versions.getLast? = some live) :
    commits L w (.advance c) =
      if settles f (advance L live (w.state.versions.length - 1) w.state.pool f).1 then
        [.request c f.job.peer f.job.http f.job.req (w.enters c)] else [] := by
  simp only [commits, hconn, hlive]

/-- A request that takes effect, as the other proxy serves it. -/
theorem Related.request (h : Related L w q) (fresh : Vm Fn Heap) (hconn : w.state.conns c = .busy f)
    (hset : settled f.point = false) :
    execute (seqStep L fresh) q [.request c f.job.peer f.job.http f.job.req (w.enters c)] = some { q with
      pool := (whole L q.srcs w.state.pool f.job).pool
      vms := Function.update q.vms c (some (whole L q.srcs w.state.pool f.job).vm)
      log := q.log ++ [(c, answerOf (whole L q.srcs w.state.pool f.job))] } := by
  have hkeeps := h.keeps c
  rw [hconn] at hkeeps
  generalize hvms : q.vms c = kept at hkeeps
  cases hkeeps with
  | waiting _ hvm => simp only [execute, Option.bind_some, seqStep, hvms, whole, hvm, h.pool]
  | effect hset' =>
    rw [hset] at hset'
    simp at hset'

theorem Related.follow (h : Related L w q) (hconn : w.state.conns c = .busy f)
    (hset : settled f.point = true) (hs : watch L fresh w (.advance c) = some w')
    (hinv : Inv L w'.state) : Related L w' q := by
  have hkeeps := h.keeps c
  have htold := h.told c
  rw [hconn] at hkeeps htold
  rw [pending_settled hset] at htold
  have hvm : q.vms c = some (whole L q.srcs f.pool f.job).vm := by
    generalize q.vms c = kept at hkeeps
    cases hkeeps with
    | waiting hun _ =>
      rw [hset] at hun
      simp at hun
    | effect _ => rfl
  have hfollows := advance_follows (w.state.versions.length - 1) w.state.pool (h.stands hconn) hset
  generalize ha : advance L q.srcs (w.state.versions.length - 1) w.state.pool f = res at hfollows
  cases hfollows with
  | goesOn hjob hset' hpool =>
    rename_i f'
    obtain rfl := watch_inl hconn h.srcs ha hs
    refine h.on (c := c) hinv rfl rfl h.pool (fun c' hc => ?_) (fun g hg => ?_) ?_ ?_
    · exact ⟨by simp [hc], rfl, rfl, rfl, rfl, Iff.rfl⟩
    · simp only [Function.update_self] at hg
      obtain rfl := Conn.busy.inj hg
      exact advance_found ha (h.found c f hconn)
    · simp only [Function.update_self, hvm, ← hjob, ← hpool]
      exact .effect hset'
    · simp only [Function.update_self, pending_settled hset', hjob, hpool]
      exact htold
  | ends hanswer hended =>
    rename_i r
    obtain rfl := watch_inr hconn h.srcs ha hs
    refine h.on (c := c) hinv rfl rfl h.pool (fun c' hc => ?_) ?_ ?_ ?_
    · exact ⟨by simp [hc], rfl, rfl, answersTo_snoc_ne hc _, rfl, Iff.rfl⟩
    · simp
    · simp only [Function.update_self, hvm, hended]
      exact .idle r.vm
    · simp only [Function.update_self, pending, List.append_nil, answersTo_snoc]
      rwa [hanswer] at htold

/-- The other proxy serves a request where it takes effect here. -/
theorem Related.settle (h : Related L w q) (hconn : w.state.conns c = .busy f)
    (hset : settled f.point = false) (hs : watch L fresh w (.advance c) = some w')
    (hinv : Inv L w'.state) :
    ∃ q', execute (seqStep L fresh) q (commits L w (.advance c)) = some q' ∧ Related L w' q' := by
  have hkeeps := h.keeps c
  have htold := h.told c
  rw [hconn] at hkeeps htold
  rw [pending_unsettled hset, List.append_nil] at htold
  have hrequest := h.request fresh hconn hset
  have hcommits := commits_advance (L := L) hconn h.srcs
  have hsettles := advance_settles (w.state.versions.length - 1) w.state.pool (h.stands hconn) hset
  generalize ha : advance L q.srcs (w.state.versions.length - 1) w.state.pool f = res
    at hsettles hcommits
  rw [hcommits]
  cases hsettles with
  | goesOn hjob hset' =>
    rename_i f'
    obtain rfl := watch_inl hconn h.srcs ha hs
    rw [if_neg (by simp [settles, hset'])]
    refine ⟨q, rfl, ?_⟩
    refine h.on (c := c) hinv rfl rfl h.pool (fun c' hc => ?_) (fun g hg => ?_) ?_ ?_
    · exact ⟨by simp [hc], rfl, rfl, rfl, rfl, Iff.rfl⟩
    · simp only [Function.update_self] at hg
      obtain rfl := Conn.busy.inj hg
      exact advance_found ha (h.found c f hconn)
    · generalize q.vms c = kept at hkeeps
      cases hkeeps with
      | waiting _ hvm =>
        simp only [Function.update_self]
        exact .waiting hset' (hjob ▸ hvm)
      | effect hset'' =>
        rw [hset] at hset''
        simp at hset''
    · simpa only [Function.update_self, pending_unsettled hset', List.append_nil] using htold
  | effect hjob hset' hpool =>
    rename_i f'
    obtain rfl := watch_inl hconn h.srcs ha hs
    rw [if_pos (by simp [settles, hset, hset'])]
    refine ⟨_, hrequest, ?_⟩
    refine h.on (c := c) hinv rfl rfl rfl (fun c' hc => ?_) (fun g hg => ?_) ?_ ?_
    · exact ⟨by simp [hc], by simp [hc], rfl, rfl, answersTo_snoc_ne hc _, Iff.rfl⟩
    · simp only [Function.update_self] at hg
      obtain rfl := Conn.busy.inj hg
      exact advance_found ha (h.found c f hconn)
    · simp only [Function.update_self, ← hjob, ← hpool]
      exact .effect hset'
    · simp only [Function.update_self, pending_settled hset', hjob, hpool, answersTo_snoc]
      exact htold.append _
  | ends hanswer hended =>
    rename_i r
    obtain rfl := watch_inr hconn h.srcs ha hs
    rw [if_pos (by simp [settles, hset])]
    refine ⟨_, hrequest, ?_⟩
    refine h.on (c := c) hinv rfl rfl rfl (fun c' hc => ?_) ?_ ?_ ?_
    · exact ⟨by simp [hc], by simp [hc], rfl, answersTo_snoc_ne hc _, answersTo_snoc_ne hc _, Iff.rfl⟩
    · simp
    · simp only [Function.update_self, hended]
      exact .idle r.vm
    · simp only [Function.update_self, pending, List.append_nil, answersTo_snoc, hanswer]
      exact htold.append _

end Advancing

theorem Related.advance (h : Related L w q) (hs : watch L fresh w (.advance c) = some w') :
    ∃ q', execute (seqStep L fresh) q (commits L w (.advance c)) = some q' ∧ Related L w' q' := by
  have hinv : Inv L w'.state := by
    obtain ⟨s, hstep, rfl⟩ := Option.map_eq_some_iff.mp hs
    exact inv_step hstep h.inv
  cases hconn : w.state.conns c with
  | busy f =>
    cases hset : settled f.point with
    | false => exact h.settle hconn hset hs hinv
    | true =>
      refine ⟨q, ?_, h.follow hconn hset hs hinv⟩
      have hsettles : settles f (ConcurrentRequests.advance L q.srcs (w.state.versions.length - 1)
          w.state.pool f).1 = false := by
        unfold settles
        split <;> simp [hset]
      rw [commits_advance hconn h.srcs, hsettles, if_neg (by simp)]
      rfl
  | _ => simp [watch, step, hconn] at hs

theorem emits : Emits (watch L fresh) Whole (seqStep L fresh) (commits L) (Related L) := by
  intro w q e w' h hw hs
  cases e with
  | reload srcs => exact ⟨_, rfl, h.reload hw hs⟩
  | health pool => exact ⟨_, rfl, h.health hs⟩
  | connect c =>
    obtain ⟨q', hq, h'⟩ := h.connect hs
    exact ⟨q', by simp only [commits, execute, hq, Option.bind_some], h'⟩
  | close c => exact ⟨_, rfl, h.close hs⟩
  | arrive c peer http req enter => exact ⟨q, rfl, h.arrive hs⟩
  | advance c => exact h.advance hs

end Simulation

section Runs
variable {host : Host} {Src Fn Heap : Type} {L : Interpreter host Src Fn Heap} {fresh : Vm Fn Heap}
  {s : State Src Fn Heap} {srcs : PluginSources Src} {w : Watched Src Fn Heap}
  {es : List (Event Src Heap)}

def beginning (s : State Src Fn Heap) : Watched Src Fn Heap :=
  ⟨s, fun _ => id, [], []⟩

def idle (srcs : PluginSources Src) (pool : UpstreamPool) : SeqState Src Fn Heap :=
  ⟨srcs, pool, fun _ => none, []⟩

/-- The run as the proxy that serves each request whole would have it. -/
def schedule (L : Interpreter host Src Fn Heap) (fresh : Vm Fn Heap) (s : State Src Fn Heap)
    (es : List (Event Src Heap)) : List (SeqEvent Src Heap) :=
  emitted (watch L fresh) (commits L) (beginning s) es

theorem related_started (hs : Started s) (hsrcs : s.versions = [srcs]) :
    Related L (beginning s) (idle srcs s.pool) := by
  refine ⟨inv_started hs, by simp [beginning, hsrcs, idle], rfl, fun c f hc => ?_, fun c => ?_, fun c => ?_⟩
  · simp [beginning, hs.alone] at hc
  · simp only [beginning, hs.alone]
    exact .closed
  · simp only [beginning, hs.alone]
    exact ⟨List.Sublist.refl _, fun _ => rfl⟩

end Runs

section Crossing
open Plugins

/-- Two clients whose requests are under way at the same time. The first takes effect first
and is answered last. -/
def crossingEvents : List (Event Plugin Heap) :=
  [.connect 0, .connect 1,
    .arrive 0 "127.0.0.1" (answering ⟨200, [], utf8 "a"⟩) ⟨"GET", "/public/a", none, [], .ok []⟩ id,
    .advance 0,
    .arrive 1 "127.0.0.2" (answering ⟨200, [], utf8 "b"⟩) ⟨"GET", "/public/b", none, [], .ok []⟩ id,
    .advance 0, .advance 1, .advance 0, .advance 0, .advance 1, .advance 1, .advance 1, .advance 1,
    .advance 1, .advance 0, .advance 0]

def quietState : State Plugin Closure Heap :=
  ⟨[shippedSources], FailClosed.plainPool, fun _ => .closed, []⟩

end Crossing

end LuaProxy.Linearizable