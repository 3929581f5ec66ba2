import LuaProxy.Transition
import LuaProxy.RequestCourse
import LuaProxy.Plugins
import LuaProxy.FailClosed

/-! Any number of connections, each with its VM and at most one request under way, beside
reloads and health checks. A phase holds the read lock while it runs and lets it go, so
between two phases of a request, or while it waits for the upstream, anything may be stored. -/
namespace LuaProxy.ConcurrentRequests
open Text Context HookMonad Engine Upstream Handler RequestCourse Transition

section Machine
variable {Src Fn Heap : Type}

/-- A request as it came in: from where, with which VM, and after how many reloads. -/
structure Job (Fn Heap : Type) where
  peer : String
  http : Http
  req : Request
  vm : Vm Fn Heap
  since : ℕ

/-- Where `handle_request` stands between its steps. -/
inductive Point
  | start
  | requested (body : Bytes) (ctx : RequestCtx)
  | routed (body : Bytes) (ctx : RequestCtx) (upstreamName : String)
  | transformed (body : Bytes) (ctx : RequestCtx) (upstreamName : String)
  | sent (ctx : RequestCtx) (target : String) (up : UpstreamRequest)
  | answered (ctx : RequestCtx) (target : String) (up : UpstreamRequest) (resp : UpstreamResponse)

/-- A request under way. -/
structure Flight (Fn Heap : Type) where
  job : Job Fn Heap
  /-- The versions its phases found so far, in order. -/
  found : List ℕ
  /-- The pool its target was chosen from. -/
  pool : UpstreamPool
  vm : Vm Fn Heap
  point : Point

structure Finished (Fn Heap : Type) where
  job : Job Fn Heap
  found : List ℕ
  pool : UpstreamPool
  /-- The reloads there had been when it ended. -/
  ended : ℕ
  outcome : Outcome
  target : Option String
  sent : Option UpstreamRequest
  vm : Vm Fn Heap

inductive Conn (Fn Heap : Type)
  | closed
  | idle (vm : Vm Fn Heap)
  | busy (flight : Flight Fn Heap)

structure State (Src Fn Heap : Type) where
  /-- All plugin sources there have been; the last ones are live. -/
  versions : List (PluginSources Src)
  pool : UpstreamPool
  conns : ℕ → Conn Fn Heap
  done : List (Finished Fn Heap)

inductive Event (Src Heap : Type)
  /-- A reload stores what it read. -/
  | reload (srcs : PluginSources Src)
  /-- A health check marks targets. -/
  | health (pool : UpstreamPool)
  | connect (c : ℕ)
  | close (c : ℕ)
  /-- A request comes in; `enter` is what has changed outside for its VM. -/
  | arrive (c : ℕ) (peer : String) (http : Http) (req : Request) (enter : Heap → Heap)
  /-- The request on a connection goes on by one step. -/
  | advance (c : ℕ)

namespace Flight
variable (f : Flight Fn Heap)

def after (version : ℕ) (vm : Vm Fn Heap) : Flight Fn Heap :=
  { f with found := f.found ++ [version], vm }

def finish (version : ℕ) (outcome : Outcome) (target : Option String)
    (sent : Option UpstreamRequest) : Finished Fn Heap :=
  ⟨f.job, f.found, f.pool, version, outcome, target, sent, f.vm⟩

end Flight

section Steps
variable {host : Host} (L : Interpreter host Src Fn Heap)

/-- One step of `handle_request`, with the sources that are live and their version. -/
def advance (live : PluginSources Src) (version : ℕ) (pool : UpstreamPool) (f : Flight Fn Heap) :
    (Flight Fn Heap ⊕ Finished Fn Heap) × UpstreamPool :=
  let req := f.job.req
  let ip := clientAddress (headerMap host req.headers) f.job.peer
  match f.point with
  | .start =>
    match req.body with
    | .error e => (.inr (f.finish version (.err e) none none), pool)
    | .ok body =>
      let p := runOnRequest L live f.vm (requestCtx host req f.job.peer body)
      let f := f.after version p.vm
      match p.ctx.rejected with
      | some (status, msg) =>
        (.inr (f.finish version (errorResponse status msg) none none), pool)
      | none => (.inl { f with point := .requested body p.ctx }, pool)
  | .requested body ctx =>
    let p := runOnRoute L live f.vm ctx
    (.inl { f.after version p.vm with point := .routed body p.ctx ((routeOf p).getD "default") },
      pool)
  | .routed body ctx upstreamName =>
    let p := runOnTransform L live f.vm ctx
    (.inl { f.after version p.vm with point := .transformed body p.ctx upstreamName }, pool)
  | .transformed body ctx upstreamName =>
    let f := { f with pool }
    match pool.nextUrl host upstreamName (some ip) with
    | (none, pool) =>
      (.inr (f.finish version (errorResponse 503 "Service Unavailable") none none), pool)
    | (some target, pool) =>
      let url := trimEndSlashes target ++ req.path
      let headers := (ctx.reqHeaders.insert "x-forwarded-for" ip).insert "x-proxy"
        "rust-lua-proxy/0.1"
      match buildRequest f.job.http req.method url headers body with
      | .error _ => (.inr (f.finish version (errorResponse 502 "Bad Gateway") (some target) none), pool)
      | .ok up => (.inl { f with point := .sent ctx target up }, pool)
  | .sent ctx target up =>
    match f.job.http.send up with
    | .error _ =>
      (.inr (f.finish version (errorResponse 502 "Bad Gateway") (some target) (some up)), pool)
    | .ok resp => (.inl { f with point := .answered (answeredCtx host ctx resp) target up resp }, pool)
  | .answered ctx target up resp =>
    let p := runOnResponse L live f.vm ctx
    let f := f.after version p.vm
    match finalResponse f.job.http p.ctx resp.body with
    | .ok r => (.inr (f.finish version (.ok r) (some target) (some up)), pool)
    | .error e => (.inr (f.finish version (.err e) (some target) (some up)), pool)

/-- One step of the proxy, if it is possible. `fresh` is the VM a connection starts with. -/
def step (fresh : Vm Fn Heap) (s : State Src Fn Heap) : Event Src Heap → Option (State Src Fn Heap)
  | .reload srcs => some { s with versions := s.versions ++ [srcs] }
  | .health pool => some { s with pool }
  | .connect c =>
    match s.conns c with
    | .closed => some { s with conns := Function.update s.conns c (.idle fresh) }
    | _ => none
  | .close c => some { s with conns := Function.update s.conns c .closed }
  | .arrive c peer http req enter =>
    match s.conns c with
    | .idle vm =>
      let vm := { vm with heap := enter vm.heap }
      let job := ⟨peer, http, req, vm, s.versions.length - 1⟩
      some { s with conns := Function.update s.conns c (.busy ⟨job, [], s.pool, vm, .start⟩) }
    | _ => none
  | .advance c =>
    match s.conns c, s.versions.getLast? with
    | .busy f, some live =>
      match advance L live (s.versions.length - 1) s.pool f with
      | (.inl f, pool) => some { s with pool, conns := Function.update s.conns c (.busy f) }
      | (.inr r, pool) =>
        some { s with
          pool
          conns := Function.update s.conns c (.idle r.vm)
          done := s.done ++ [r] }
    | _, _ => none

end Steps

/-- The proxy has started: sources are loaded, and nobody is connected. -/
structure Started (s : State Src Fn Heap) : Prop where
  loaded : ∃ srcs, s.versions = [srcs]
  alone : ∀ c, s.conns c = .closed
  fresh : s.done = []

end Machine

section Spec
variable {host : Host} {Src Fn Heap : Type} (L : Interpreter host Src Fn Heap)

def place : Hook → ℕ
  | .onRequest => 0
  | .onRoute => 1
  | .onTransform => 2
  | .onResponse => 3

/-- Sources for each phase that are of the version it found, if it ran. -/
def Agrees (versions : List (PluginSources Src)) (srcs : Hook → PluginSources Src)
    (found : List ℕ) : Prop :=
  ∀ hook v, found[place hook]? = some v → versions[v]? = some (srcs hook)

/-- The end a request came to is that of `handle_request` on these sources. -/
structure RunsAs (srcs : Hook → PluginSources Src) (r : Finished Fn Heap) (counters : Counters) :
    Prop where
  outcome : (handleRequest L r.job.http srcs r.job.peer r.job.req r.job.vm r.pool counters).outcome =
    r.outcome
  target : (handleRequest L r.job.http srcs r.job.peer r.job.req r.job.vm r.pool counters).target =
    r.target
  sent : (handleRequest L r.job.http srcs r.job.peer r.job.req r.job.vm r.pool counters).sent = r.sent
  vm : (handleRequest L r.job.http srcs r.job.peer r.job.req r.job.vm r.pool counters).vm = r.vm

/-- How far a request has come, if its phases ran on these sources. -/
inductive Stands (srcs : Hook → PluginSources Src) (job : Job Fn Heap) (pool : UpstreamPool) :
    Vm Fn Heap → Point → Prop
  | start : Stands srcs job pool job.vm .start
  | requested {body : Bytes} (h : job.req.body = .ok body)
      (hpass : (requestPhase L srcs job.peer job.req body job.vm).ctx.rejected = none) :
      Stands srcs job pool (requestPhase L srcs job.peer job.req body job.vm).vm
        (.requested body (requestPhase L srcs job.peer job.req body job.vm).ctx)
  | routed {body : Bytes} (h : job.req.body = .ok body)
      (hpass : (requestPhase L srcs job.peer job.req body job.vm).ctx.rejected = none) :
      Stands srcs job pool (routePhase L srcs job.peer job.req body job.vm).vm
        (.routed body (routePhase L srcs job.peer job.req body job.vm).ctx
          ((routeOf (routePhase L srcs job.peer job.req body job.vm)).getD "default"))
  | transformed {body : Bytes} (h : job.req.body = .ok body)
      (hpass : (requestPhase L srcs job.peer job.req body job.vm).ctx.rejected = none) :
      Stands srcs job pool (transformPhase L srcs job.peer job.req body job.vm).vm
        (.transformed body (transformPhase L srcs job.peer job.req body job.vm).ctx
          ((routeOf (routePhase L srcs job.peer job.req body job.vm)).getD "default"))
  | sent {body : Bytes} {target : String} {up : UpstreamRequest}
      (h : Routed L srcs job.peer job.req job.vm pool body target)
      (hbuild : upstreamRequest L srcs job.peer job.req body job.vm job.http target = .ok up) :
      Stands srcs job pool (transformPhase L srcs job.peer job.req body job.vm).vm
        (.sent (transformPhase L srcs job.peer job.req body job.vm).ctx target up)
  | answered {body : Bytes} {target : String} {up : UpstreamRequest} {resp : UpstreamResponse}
      (h : Routed L srcs job.peer job.req job.vm pool body target)
      (hbuild : upstreamRequest L srcs job.peer job.req body job.vm job.http target = .ok up)
      (hsend : job.http.send up = .ok resp) :
      Stands srcs job pool (transformPhase L srcs job.peer job.req body job.vm).vm
        (.answered (answeredCtx host (transformPhase L srcs job.peer job.req body job.vm).ctx resp)
          target up resp)

def Point.phases : Point → ℕ
  | .start => 0
  | .requested _ _ => 1
  | .routed _ _ _ => 2
  | .transformed _ _ _ => 3
  | .sent _ _ _ => 3
  | .answered _ _ _ _ => 3

/-- The versions a request found come in order, from the one it came in on to a later one. -/
def InOrder (since upto : ℕ) (found : List ℕ) : Prop :=
  found.Pairwise (· ≤ ·) ∧ ∀ v ∈ found, since ≤ v ∧ v ≤ upto

/-- A request under way, at a version, has come as far as `handle_request` would on the
sources its phases found. -/
structure FlightOk (versions : List (PluginSources Src)) (upto : ℕ) (f : Flight Fn Heap) : Prop where
  since : f.job.since ≤ upto
  order : InOrder f.job.since upto f.found
  phases : f.found.length = f.point.phases
  stands : ∀ srcs, Agrees versions srcs f.found → Stands L srcs f.job f.pool f.vm f.point

structure FinishedOk (versions : List (PluginSources Src)) (r : Finished Fn Heap) : Prop where
  ended : r.ended < versions.length
  order : InOrder r.job.since r.ended r.found
  runs : ∀ srcs, Agrees versions srcs r.found → ∀ counters, RunsAs L srcs r counters

variable {L} {versions : List (PluginSources Src)} {srcs : Hook → PluginSources Src} {found : List ℕ}
  {since upto v : ℕ} {live : PluginSources Src}

theorem Agrees.init (h : Agrees versions srcs (found ++ [v])) : Agrees versions srcs found := by
  intro hook w hw
  apply h hook w
  obtain ⟨hlt, -⟩ := List.getElem?_eq_some_iff.mp hw
  rw [List.getElem?_append_left hlt, hw]

theorem Agrees.last (h : Agrees versions srcs (found ++ [v])) (hv : versions[v]? = some live)
    {hook : Hook} (hp : found.length = place hook) : srcs hook = live := by
  have hfound : (found ++ [v])[place hook]? = some v := by rw [← hp, List.getElem?_concat_length]
  exact Option.some.inj ((h hook v hfound).symm.trans hv)

theorem InOrder.after (h : InOrder since upto found) (hs : since ≤ upto) :
    InOrder since upto (found ++ [upto]) := by
  refine ⟨?_, fun v hv => ?_⟩
  · rw [List.pairwise_append]
    refine ⟨h.1, List.pairwise_singleton _ _, fun v hv w hw => ?_⟩
    rw [List.mem_singleton.mp hw]
    exact (h.2 v hv).2
  · rcases List.mem_append.mp hv with hv | hv
    · exact h.2 v hv
    · rw [List.mem_singleton.mp hv]
      exact ⟨hs, le_rfl⟩

theorem RunsAs.of_course {r : Finished Fn Heap} {counters counters' : Counters} {pool : UpstreamPool}
    (h : Course L r.job.http srcs r.job.peer r.job.req r.job.vm r.pool counters
      ⟨r.outcome, r.target, r.sent, r.vm, pool, counters'⟩) : RunsAs L srcs r counters := by
  constructor <;> rw [h.eq]

end Spec

section Advance
variable {host : Host} {Src Fn Heap : Type} {L : Interpreter host Src Fn Heap}
  {versions : List (PluginSources Src)} {upto : ℕ} {live : PluginSources Src}

/-- What a step may make of a request under way. -/
def Sound (L : Interpreter host Src Fn Heap) (versions : List (PluginSources Src)) (upto : ℕ) :
    Flight Fn Heap ⊕ Finished Fn Heap → Prop
  | .inl f => FlightOk L versions upto f
  | .inr r => FinishedOk L versions r

section Rules
variable {f : Flight Fn Heap} (h : FlightOk L versions upto f)
include h

/-- A phase of a request under way runs on the live sources. -/
theorem FlightOk.phase (hlive : versions[upto]? = some live) (hook : Hook)
    (hplace : f.point.phases = place hook) {vm : Vm Fn Heap} {point : Point}
    (hphases : point.phases = f.point.phases + 1)
    (hstands : ∀ srcs, srcs hook = live → Stands L srcs f.job f.pool f.vm f.point →
      Stands L srcs f.job f.pool vm point) :
    FlightOk L versions upto { f.after upto vm with point } where
  since := h.since
  order := h.order.after h.since
  phases := by simp [Flight.after, h.phases, hphases]
  stands srcs ha := hstands srcs (ha.last hlive (h.phases.trans hplace)) (h.stands srcs ha.init)

/-- A request goes on without a phase. -/
theorem FlightOk.goes {point : Point} (hphases : point.phases = f.point.phases)
    (hstands : ∀ srcs, Stands L srcs f.job f.pool f.vm f.point →
      Stands L srcs f.job f.pool f.vm point) : FlightOk L versions upto { f with point } where
  since := h.since
  order := h.order
  phases := h.phases.trans hphases.symm
  stands srcs ha := hstands srcs (h.stands srcs ha)

/-- A request ends between two phases. -/
theorem FlightOk.ends (hlive : versions[upto]? = some live) {outcome : Outcome}
    {target : Option String} {sent : Option UpstreamRequest}
    (hruns : ∀ srcs counters, Stands L srcs f.job f.pool f.vm f.point →
      RunsAs L srcs (f.finish upto outcome target sent) counters) :
    FinishedOk L versions (f.finish upto outcome target sent) where
  ended := (List.getElem?_eq_some_iff.mp hlive).1
  order := h.order
  runs srcs ha counters := hruns srcs counters (h.stands srcs ha)

/-- A request ends with a phase. -/
theorem FlightOk.phase_ends (hlive : versions[upto]? = some live) (hook : Hook)
    (hplace : f.point.phases = place hook) {vm : Vm Fn Heap} {outcome : Outcome}
    {target : Option String} {sent : Option UpstreamRequest}
    (hruns : ∀ srcs counters, srcs hook = live → Stands L srcs f.job f.pool f.vm f.point →
      RunsAs L srcs ((f.after upto vm).finish upto outcome target sent) counters) :
    FinishedOk L versions ((f.after upto vm).finish upto outcome target sent) where
  ended := (List.getElem?_eq_some_iff.mp hlive).1
  order := h.order.after h.since
  runs srcs ha counters :=
    hruns srcs counters (ha.last hlive (h.phases.trans hplace)) (h.stands srcs ha.init)

/-- Up to the choice of a target no pool matters. -/
theorem FlightOk.choose {body : Bytes} {ctx : RequestCtx} {upstreamName : String}
    (hpoint : f.point = .transformed body ctx upstreamName) (pool : UpstreamPool) :
    FlightOk L versions upto { f with pool } := by
  refine ⟨h.since, h.order, h.phases, fun srcs ha => ?_⟩
  have hstands := h.stands srcs ha
  rw [hpoint] at hstands ⊢
  generalize f.vm = vm at hstands ⊢
  cases hstands with
  | transformed hbody hpass => exact .transformed hbody hpass

end Rules

variable {f : Flight Fn Heap}

theorem start_sound (hlive : versions[upto]? = some live) (pool : UpstreamPool)
    (h : FlightOk L versions upto f) (hpoint : f.point = .start) :
    Sound L versions upto (advance L live upto pool f).1 := by
  obtain ⟨job, found, chosenFrom, vm, point⟩ := f
  obtain rfl : point = .start := hpoint
  simp only [advance]
  cases hbody : job.req.body with
  | error e =>
    refine h.ends hlive fun srcs counters hstands => ?_
    dsimp only at hstands
    cases hstands with
    | start => exact .of_course (.unread hbody)
  | ok body =>
    dsimp only
    cases hrej : (runOnRequest L live vm (requestCtx host job.req job.peer body)).ctx.rejected with
    | some r =>
      obtain ⟨status, msg⟩ := r
      refine h.phase_ends hlive .onRequest rfl fun srcs counters hsrcs hstands => ?_
      subst hsrcs
      dsimp only at hstands
      cases hstands with
      | start => exact .of_course (.rejected hbody hrej)
    | none =>
      refine h.phase hlive .onRequest rfl rfl fun srcs hsrcs hstands => ?_
      subst hsrcs
      dsimp only at hstands
      cases hstands with
      | start => exact .requested hbody hrej

theorem transformed_sound (hlive : versions[upto]? = some live) (pool : UpstreamPool)
    (h : FlightOk L versions upto f) {body : Bytes} {ctx : RequestCtx} {upstreamName : String}
    (hpoint : f.point = .transformed body ctx upstreamName) :
    Sound L versions upto (advance L live upto pool f).1 := by
  have h := h.choose hpoint pool
  obtain ⟨job, found, chosenFrom, vm, point⟩ := f
  obtain rfl : point = _ := hpoint
  simp only [advance]
  cases hc : pool.nextUrl host upstreamName
    (some (clientAddress (headerMap host job.req.headers) job.peer)) with
  | mk chosenTarget pool' =>
    cases chosenTarget with
    | none =>
      refine h.ends hlive fun srcs counters hstands => ?_
      dsimp only at hstands
      cases hstands with
      | transformed hbody hpass => exact .of_course (.noTarget hbody hpass (congrArg Prod.fst hc))
    | some target =>
      dsimp only
      split
      · rename_i e hbuild
        refine h.ends hlive fun srcs counters hstands => ?_
        dsimp only at hstands
        cases hstands with
        | transformed hbody hpass =>
          exact .of_course (.unbuilt ⟨hbody, hpass, congrArg Prod.fst hc⟩ hbuild)
      · rename_i up hbuild
        refine h.goes rfl fun srcs hstands => ?_
        dsimp only at hstands
        cases hstands with
        | transformed hbody hpass => exact .sent ⟨hbody, hpass, congrArg Prod.fst hc⟩ hbuild

theorem sent_sound (hlive : versions[upto]? = some live) (pool : UpstreamPool)
    (h : FlightOk L versions upto f) {ctx : RequestCtx} {target : String} {up : UpstreamRequest}
    (hpoint : f.point = .sent ctx target up) :
    Sound L versions upto (advance L live upto pool f).1 := by
  obtain ⟨job, found, chosenFrom, vm, point⟩ := f
  obtain rfl : point = _ := hpoint
  simp only [advance]
  cases hsend : job.http.send up with
  | error e =>
    refine h.ends hlive fun srcs counters hstands => ?_
    dsimp only at hstands
    cases hstands with
    | sent hrouted hbuild => exact .of_course (.unanswered hrouted hbuild hsend)
  | ok resp =>
    refine h.goes rfl fun srcs hstands => ?_
    dsimp only at hstands
    cases hstands with
    | sent hrouted hbuild => exact .answered hrouted hbuild hsend

theorem answered_sound (hlive : versions[upto]? = some live) (pool : UpstreamPool)
    (h : FlightOk L versions upto f) {ctx : RequestCtx} {target : String} {up : UpstreamRequest}
    {resp : UpstreamResponse} (hpoint : f.point = .answered ctx target up resp) :
    Sound L versions upto (advance L live upto pool f).1 := by
  obtain ⟨job, found, chosenFrom, vm, point⟩ := f
  obtain rfl : point = _ := hpoint
  simp only [advance]
  split
  · rename_i r hfinal
    refine h.phase_ends hlive .onResponse rfl fun srcs counters hsrcs hstands => ?_
    subst hsrcs
    dsimp only at hstands
    cases hstands with
    | answered hrouted hbuild hsend => exact .of_course (.answered hrouted hbuild hsend hfinal)
  · rename_i e hfinal
    refine h.phase_ends hlive .onResponse rfl fun srcs counters hsrcs hstands => ?_
    subst hsrcs
    dsimp only at hstands
    cases hstands with
    | answered hrouted hbuild hsend => exact .of_course (.unassembled hrouted hbuild hsend hfinal)

theorem advance_sound (hlive : versions[upto]? = some live) (pool : UpstreamPool)
    (h : FlightOk L versions upto f) : Sound L versions upto (advance L live upto pool f).1 := by
  cases hpoint : f.point with
  | start => exact start_sound hlive pool h hpoint
  | requested body ctx =>
    obtain ⟨job, found, chosenFrom, vm, point⟩ := f
    obtain rfl : point = _ := hpoint
    refine h.phase hlive .onRoute rfl rfl fun srcs hsrcs hstands => ?_
    subst hsrcs
    dsimp only at hstands
    cases hstands with
    | requested hbody hpass => exact .routed hbody hpass
  | routed body ctx upstreamName =>
    obtain ⟨job, found, chosenFrom, vm, point⟩ := f
    obtain rfl : point = _ := hpoint
    refine h.phase hlive .onTransform rfl rfl fun srcs hsrcs hstands => ?_
    subst hsrcs
    dsimp only at hstands
    cases hstands with
    | routed hbody hpass => exact .transformed hbody hpass
  | transformed body ctx upstreamName => exact transformed_sound hlive pool h hpoint
  | sent ctx target up => exact sent_sound hlive pool h hpoint
  | answered ctx target up resp => exact answered_sound hlive pool h hpoint

end Advance

section Runs
variable {host : Host} {Src Fn Heap : Type} {L : Interpreter host Src Fn Heap} {fresh : Vm Fn Heap}
  {versions : List (PluginSources Src)} {srcs : Hook → PluginSources Src} {found : List ℕ}

theorem Agrees.of_reload {new : PluginSources Src} (h : Agrees (versions ++ [new]) srcs found)
    (hfound : ∀ v ∈ found, v < versions.length) : Agrees versions srcs found := by
  intro hook v hv
  have hnew := h hook v hv
  rwa [List.getElem?_append_left (hfound v (List.mem_of_getElem? hv))] at hnew

theorem FlightOk.reload {f : Flight Fn Heap} {upto upto' : ℕ} (h : FlightOk L versions upto f)
    (hupto : upto < versions.length) (hle : upto ≤ upto') (new : PluginSources Src) :
    FlightOk L (versions ++ [new]) upto' f := by
  refine ⟨h.since.trans hle, ⟨h.order.1, fun v hv => ?_⟩, h.phases, fun srcs ha => h.stands srcs ?_⟩
  · exact ⟨(h.order.2 v hv).1, (h.order.2 v hv).2.trans hle⟩
  · exact ha.of_reload fun v hv => (h.order.2 v hv).2.trans_lt hupto

theorem FinishedOk.reload {r : Finished Fn Heap} (h : FinishedOk L versions r)
    (new : PluginSources Src) : FinishedOk L (versions ++ [new]) r := by
  refine ⟨?_, h.order, fun srcs ha => h.runs srcs ?_⟩
  · rw [List.length_append]
    exact Nat.lt_add_right _ h.ended
  · exact ha.of_reload fun v hv => (h.order.2 v hv).2.trans_lt h.ended

/-- Every request, under way or ended, went as `handle_request` goes. -/
structure Inv (L : Interpreter host Src Fn Heap) (s : State Src Fn Heap) : Prop where
  loaded : 0 < s.versions.length
  flights : ∀ c f, s.conns c = .busy f → FlightOk L s.versions (s.versions.length - 1) f
  done : ∀ r ∈ s.done, FinishedOk L s.versions r

theorem inv_started {s : State Src Fn Heap} (h : Started s) : Inv L s := by
  obtain ⟨⟨srcs, hversions⟩, hclosed, hdone⟩ := h
  refine ⟨by simp [hversions], fun c f hc => ?_, fun r hr => ?_⟩
  · simp [hclosed] at hc
  · simp [hdone] at hr

theorem flights_update {s : State Src Fn Heap} (h : Inv L s) {c : ℕ} {conn : Conn Fn Heap}
    (hconn : ∀ f, conn = .busy f → FlightOk L s.versions (s.versions.length - 1) f) (c' : ℕ)
    (f : Flight Fn Heap) (hf : Function.update s.conns c conn c' = .busy f) :
    FlightOk L s.versions (s.versions.length - 1) f := by
  by_cases hc : c' = c
  · subst hc
    rw [Function.update_self] at hf
    exact hconn f hf
  · rw [Function.update_of_ne hc] at hf
    exact h.flights c' f hf

theorem inv_step {s s' : State Src Fn Heap} {e : Event Src Heap} (hs : step L fresh s e = some s')
    (h : Inv L s) : Inv L s' := by
  have hlast : s.versions.length - 1 < s.versions.length := Nat.sub_lt h.loaded one_pos
  cases e with
  | reload new =>
    obtain rfl := Option.some.inj hs
    refine ⟨by simp, fun c f hc => ?_, fun r hr => (h.done r hr).reload new⟩
    exact (h.flights c f hc).reload hlast (by simp) new
  | health pool =>
    obtain rfl := Option.some.inj hs
    exact ⟨h.loaded, h.flights, h.done⟩
  | connect c =>
    simp only [step] at hs
    split at hs
    · obtain rfl := Option.some.inj hs
      exact ⟨h.loaded, flights_update h (by simp), h.done⟩
    · simp at hs
  | close c =>
    obtain rfl := Option.some.inj hs
    exact ⟨h.loaded, flights_update h (by simp), h.done⟩
  | arrive c peer http req enter =>
    simp only [step] at hs
    split at hs
    · obtain rfl := Option.some.inj hs
      refine ⟨h.loaded, flights_update h fun f hf => ?_, h.done⟩
      obtain rfl := Conn.busy.inj hf
      exact ⟨le_rfl, ⟨List.Pairwise.nil, by simp⟩, rfl, fun _ _ => .start⟩
    · simp at hs
  | advance c =>
    simp only [step] at hs
    split at hs
    · rename_i f live hc hlive
      rw [List.getLast?_eq_getElem?] at hlive
      have hsound := advance_sound hlive s.pool (h.flights c f hc)
      split at hs
      · rename_i f' pool hf
        obtain rfl := Option.some.inj hs
        rw [hf] at hsound
        refine ⟨h.loaded, flights_update h fun g hg => ?_, h.done⟩
        obtain rfl := Conn.busy.inj hg
        exact hsound
      · rename_i r pool hr
        obtain rfl := Option.some.inj hs
        rw [hr] at hsound
        refine ⟨h.loaded, flights_update h (by simp), fun r' hr' => ?_⟩
        rcases List.mem_append.mp hr' with hr' | hr'
        · exact h.done r' hr'
        · rw [List.mem_singleton.mp hr']
          exact hsound
    · simp at hs

def Event.stored : Event Src Heap → List (PluginSources Src)
  | .reload srcs => [srcs]
  | _ => []

theorem step_versions {s s' : State Src Fn Heap} {e : Event Src Heap}
    (hs : step L fresh s e = some s') : s'.versions = s.versions ++ e.stored := by
  cases e with
  | reload new =>
    obtain rfl := Option.some.inj hs
    rfl
  | _ =>
    simp only [step] at hs
    grind [Event.stored]

theorem run_versions {s s' : State Src Fn Heap} {es : List (Event Src Heap)}
    (hrun : Run (fun s e s' => step L fresh s e = some s') s es s') :
    s'.versions = s.versions ++ es.flatMap Event.stored := by
  induction hrun with
  | nil s => simp
  | cons hs _ ih => rw [ih, step_versions hs, List.flatMap_cons, List.append_assoc]

theorem exists_agrees (hne : 0 < versions.length) (hfound : ∀ v ∈ found, v < versions.length) :
    ∃ srcs, Agrees versions srcs found := by
  refine ⟨fun hook => (found[place hook]?.bind fun v => versions[v]?).getD versions[0], ?_⟩
  intro hook v hv
  have hlt := hfound v (List.mem_of_getElem? hv)
  simp [hv, List.getElem?_eq_getElem hlt]

/-- Whatever is stored while requests are under way, each of their phases runs on the sources
that are live then: those it came in on, or later ones, in order. A request ends as
`handle_request` does on the sources its phases found, which is one version of them whenever
no phase found another. -/
theorem each_phase_one_version {s s' : State Src Fn Heap} {es : List (Event Src Heap)}
    (hrun : Run (fun s e s' => step L fresh s e = some s') s es s') (hs : Started s) :
    s'.versions = s.versions ++ es.flatMap Event.stored ∧
      ∀ r ∈ s'.done, r.ended < s'.versions.length ∧ InOrder r.job.since r.ended r.found ∧
        (∃ srcs, Agrees s'.versions srcs r.found ∧ ∀ counters, RunsAs L srcs r counters) ∧
        ∀ v live, s'.versions[v]? = some live → (∀ w ∈ r.found, w = v) →
          ∀ counters, RunsAs L (fun _ => live) r counters := by
  have hinv : Inv L s' := hrun.invariant (fun _ _ _ => inv_step) (inv_started hs)
  refine ⟨run_versions hrun, fun r hr => ?_⟩
  obtain ⟨hended, horder, hruns⟩ := hinv.done r hr
  refine ⟨hended, horder, ?_, fun v live hlive hone => hruns _ fun hook w hw => ?_⟩
  · obtain ⟨srcs, hsrcs⟩ := exists_agrees hinv.loaded fun v hv => (horder.2 v hv).2.trans_lt hended
    exact ⟨srcs, hsrcs, hruns srcs hsrcs⟩
  · rw [hone w (List.mem_of_getElem? hw), hlive]

end Runs

section Mixed
open Plugins

/-- Every request ends as if one version of the sources had been there for all of it. -/
def OneVersion : Prop :=
  ∀ (host : Host) (Src Fn Heap : Type) (L : Interpreter host Src Fn Heap) (fresh : Vm Fn Heap)
    (s s' : State Src Fn Heap) (es : List (Event Src Heap)),
    Run (fun s e s' => step L fresh s e = some s') s es s' → Started s →
    ∀ r ∈ s'.done, ∃ live ∈ s'.versions, ∀ counters, (handleRequest L r.job.http (fun _ => live)
      r.job.peer r.job.req r.job.vm r.pool counters).outcome = r.outcome

/-- The shipped pipeline before `transform.lua` is there. -/
def earlySources : PluginSources Plugin :=
  { shippedSources with sources := shippedSources.sources.erase "transform.lua" }

def emptyVm : Vm Closure Heap := ⟨fun _ => none, ⟨[], fun _ => 0, fun _ => "id", fun _ => true⟩⟩

def startState : State Plugin Closure Heap :=
  ⟨[earlySources], FailClosed.plainPool, fun _ => .closed, []⟩

theorem started_startState : Started startState := ⟨⟨_, rfl⟩, fun _ => rfl, rfl⟩

/-- `transform.lua` arrives between two phases of a request. -/
def mixedEvents : List (Event Plugin Heap) :=
  [.connect 0, .arrive 0 "127.0.0.1" (answering ⟨200, [], utf8 "ok"⟩)
      ⟨"GET", "/public/page", none, [], .ok []⟩ id,
    .advance 0, .reload shippedSources, .advance 0, .advance 0, .advance 0, .advance 0, .advance 0]

theorem mixed_each_phase :
    ∃ s, execute (step (shippedLua Host.plain) emptyVm) startState mixedEvents = some s ∧
      s.done.length = 1 ∧ ∀ r ∈ s.done, ∃ srcs, Agrees s.versions srcs r.found ∧
        ∀ counters, RunsAs (shippedLua Host.plain) srcs r counters := by
  have hdone : (execute (step (shippedLua Host.plain) emptyVm) startState mixedEvents).any
      (fun s => s.done.length = 1) = true := by decide +kernel
  obtain ⟨s, hs, hlength⟩ := (Option.any_eq_true _ _).mp hdone
  have hall := (each_phase_one_version (Run.of_execute hs) started_startState).2
  exact ⟨s, hs, of_decide_eq_true hlength, fun r hr => (hall r hr).2.2.1⟩

def outcomeHeader (o : Outcome) (h : String) : Option String :=
  (response o).bind fun a => a.headers.lookup h

/-- The answer has the headers of `transform.lua` and lacks the request id it gives out. -/
theorem versions_mixed : ¬ OneVersion := by
  intro h
  have hmixed : (execute (step (shippedLua Host.plain) emptyVm) startState mixedEvents).any
      (fun s => s.done.any fun r => outcomeHeader r.outcome "server" = some "proxy" ∧
        outcomeHeader r.outcome "x-request-id" = none ∧
        outcomeHeader (handleRequest (shippedLua Host.plain) r.job.http (fun _ => earlySources)
          r.job.peer r.job.req r.job.vm r.pool ∅).outcome "server" = none ∧
        outcomeHeader (handleRequest (shippedLua Host.plain) r.job.http (fun _ => shippedSources)
          r.job.peer r.job.req r.job.vm r.pool ∅).outcome "x-request-id" = some "id") = true := by
    decide +kernel
  obtain ⟨s, hs, hmixed⟩ := (Option.any_eq_true _ _).mp hmixed
  obtain ⟨r, hr, hheaders⟩ := List.any_eq_true.mp hmixed
  obtain ⟨hserver, hid, hearly, hshipped⟩ := of_decide_eq_true hheaders
  have hrun := Run.of_execute hs
  obtain ⟨live, hlive, hone⟩ := h _ _ _ _ _ _ _ s _ hrun started_startState r hr
  have hversions : s.versions = [earlySources, shippedSources] := run_versions hrun
  rw [hversions] at hlive
  simp only [List.mem_cons, List.not_mem_nil, or_false] at hlive
  rcases hlive with rfl | rfl
  · rw [hone ∅, hserver] at hearly
    simp at hearly
  · rw [hone ∅, hid] at hshipped
    simp at hshipped

end Mixed

end LuaProxy.ConcurrentRequests
