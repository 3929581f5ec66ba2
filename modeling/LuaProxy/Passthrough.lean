import Mathlib.Data.List.TakeWhile
import LuaProxy.RequestCourse
import LuaProxy.FailClosed

/-! What the proxy hands on without a plugin's doing: the target of a request, the values of
its headers, and the body and headers of the answer. -/
namespace LuaProxy.Passthrough
open Text Lua Context HookMonad Engine Upstream Handler CtxWrites RequestCourse

section Parts

/-- No plugins at all. -/
def noLua : Interpreter Host.plain Unit Unit Unit where
  exec _ _ := pure ()
  call _ := pure .nil

def noSources : PluginSources Unit := ⟨[], ∅⟩

def noVm : Vm Unit Unit := ⟨fun _ => none, ()⟩

end Parts

section Body

def BodyKept : Prop :=
  ∀ (host : Host) (Src Fn Heap : Type) (L : Interpreter host Src Fn Heap) (http : Http)
    (srcs : Hook → PluginSources Src) (peer : String) (req : Request) (vm : Vm Fn Heap)
    (pool : UpstreamPool) (counters : Counters) (up : UpstreamRequest) (resp : UpstreamResponse)
    (a : Response), (handleRequest L http srcs peer req vm pool counters).sent = some up →
    http.send up = .ok resp →
    (handleRequest L http srcs peer req vm pool counters).outcome = .ok a → a.body = resp.body

variable {host : Host} {Src Fn Heap : Type} (L : Interpreter host Src Fn Heap) (http : Http)
  (srcs : Hook → PluginSources Src) (peer : String) (req : Request) (vm : Vm Fn Heap)
  (pool : UpstreamPool) (counters : Counters)

/-- The body goes through a text on its way, so it arrives unchanged exactly if it is UTF-8. -/
theorem body_kept_iff (hlossy : ∀ b, host.fromUtf8Lossy b = "" → b = []) {up : UpstreamRequest}
    {resp : UpstreamResponse} {a : Response}
    (hsent : (handleRequest L http srcs peer req vm pool counters).sent = some up)
    (hsend : http.send up = .ok resp)
    (ha : (handleRequest L http srcs peer req vm pool counters).outcome = .ok a) :
    a.body = resp.body ↔ ValidUtf8 resp.body := by
  have hcourse := handleRequest_course L http srcs peer req vm pool counters
  obtain ⟨body, -, hfinal⟩ := hcourse.of_answer hsent hsend ha
  have hbody : (responsePhase L srcs peer req body vm resp).ctx.resBody =
      host.fromUtf8Lossy resp.body := by
    rw [responsePhase_ctx, runAll_resBody]
    rfl
  rw [finalResponse_ok hfinal, hbody]
  split_ifs with hempty
  · rw [hlossy _ hempty]
    exact iff_of_true rfl ⟨"", utf8_empty⟩
  · constructor
    · intro h
      exact ⟨_, h⟩
    · rintro ⟨s, hs⟩
      dsimp only
      rw [← hs, host.fromUtf8Lossy_utf8]

theorem text_body_kept :
    (⟨200, ∅, utf8 "ok"⟩ : Response).body = utf8 "ok" ↔ ValidUtf8 (utf8 "ok") := by
  have hlossy : ∀ b, Host.plain.fromUtf8Lossy b = "" → b = [] := by
    intro b hb
    change (fromUtf8 b).getD "\uFFFD" = "" at hb
    cases hf : fromUtf8 b with
    | none =>
      rw [hf] at hb
      exact absurd hb (by decide)
    | some s =>
      rw [hf] at hb
      obtain rfl : s = "" := hb
      rw [← fromUtf8_eq_some.mp hf, utf8_empty]
  exact body_kept_iff noLua (answering ⟨200, [], utf8 "ok"⟩) (fun _ => noSources) "127.0.0.1"
    FailClosed.plainRequest noVm FailClosed.plainPool ∅ hlossy rfl rfl rfl

/-- A byte that is no UTF-8 arrives as three others. -/
theorem binary_body_changed : ¬ BodyKept := by
  intro h
  have hb := h Host.plain Unit Unit Unit noLua (answering ⟨200, [], [0xFF]⟩) (fun _ => noSources)
    "127.0.0.1" FailClosed.plainRequest noVm FailClosed.plainPool ∅ _ ⟨200, [], [0xFF]⟩
    ⟨200, ∅, [0xEF, 0xBF, 0xBD]⟩ rfl rfl rfl
  exact absurd hb (by decide)

end Body

section Headers
variable (host : Host)

def valuesOf (h : String) (headers : List (String × Bytes)) : List Bytes :=
  (headers.filter fun e => host.toLowercase e.1 = h).map Prod.snd

def sentValues (h : String) (headers : HashMap String) : List Bytes :=
  ((headers.lookup h).map utf8).toList

def lastText (vs : List Bytes) : List Bytes := ((lastSome toStr vs).map utf8).toList

variable {host}

theorem lastSome_valuesOf (h : String) (headers : List (String × Bytes)) :
    lastSome (fun e => if host.toLowercase e.1 = h then toStr e.2 else none) headers =
      lastSome toStr (valuesOf host h headers) := by
  induction headers with
  | nil => rfl
  | cons e es ih =>
    rw [lastSome_cons, ih]
    by_cases hk : host.toLowercase e.1 = h
    · have hv : valuesOf host h (e :: es) = e.2 :: valuesOf host h es := by simp [valuesOf, hk]
      rw [if_pos hk, hv, lastSome_cons]
    · have hv : valuesOf host h (e :: es) = valuesOf host h es := by simp [valuesOf, hk]
      rw [if_neg hk, hv, Option.or_none]

theorem headerMap_lookup (h : String) (headers : List (String × Bytes)) :
    (headerMap host headers).lookup h = lastSome toStr (valuesOf host h headers) := by
  rw [← lastSome_valuesOf]
  refine (foldl_last (f := fun e => if host.toLowercase e.1 = h then toStr e.2 else none)
    (fun m : HashMap String => m.lookup h) (fun m e => ?_) ∅ headers).trans ?_
  · cases hv : toStr e.2 with
    | none => simp
    | some val => exact lookup_insert_or _ _ _
  · simp

theorem sentValues_headerMap (h : String) (headers : List (String × Bytes)) :
    sentValues h (headerMap host headers) = lastText (valuesOf host h headers) := by
  rw [sentValues, headerMap_lookup, lastText]

theorem utf8_toStr {v : Bytes} {s : String} (h : toStr v = some s) : utf8 s = v := by
  unfold toStr at h
  split_ifs at h
  exact fromUtf8_eq_some.mp h

theorem sentValues_length (h : String) (headers : HashMap String) :
    (sentValues h headers).length ≤ 1 := by
  unfold sentValues
  cases (headers.lookup h).map utf8 <;> simp

/-- One value at most, and plain text. -/
def OneText (vs : List Bytes) : Prop := vs.length ≤ 1 ∧ ∀ v ∈ vs, (toStr v).isSome

theorem lastText_eq_iff (vs : List Bytes) : lastText vs = vs ↔ OneText vs := by
  cases vs with
  | nil => simp [lastText, OneText]
  | cons v vs =>
    cases vs with
    | nil =>
      rw [lastText, lastSome_cons, lastSome_nil, Option.none_or]
      cases hv : toStr v with
      | none => simp [hv, OneText]
      | some s => simp [hv, utf8_toStr hv, OneText]
    | cons w vs =>
      have hlen : (lastText (v :: w :: vs)).length ≤ 1 := by
        unfold lastText
        cases (lastSome toStr (v :: w :: vs)).map utf8 <;> simp
      constructor
      · intro h
        rw [h] at hlen
        simp at hlen
      · rintro ⟨h, -⟩
        simp at h

end Headers

section HeaderRuns
variable {host : Host} {Src Fn Heap : Type} (L : Interpreter host Src Fn Heap) (http : Http)
  (srcs : Hook → PluginSources Src) (peer : String) (req : Request) (vm : Vm Fn Heap)
  (pool : UpstreamPool) (counters : Counters)

/-- No hook before forwarding sets the request header. -/
def LeavesRequest (h : String) : Prop :=
  ∀ body, req.body = .ok body → ∀ c ∈ earlierCalls L srcs peer req body vm, reqWrite host h c = none

/-- No `on_response` hook sets the response header. -/
def LeavesResponse (resp : UpstreamResponse) (h : String) : Prop :=
  ∀ body, req.body = .ok body →
    ∀ c ∈ (responsePhase L srcs peer req body vm resp).calls, resWrite host h c = none

theorem forwarded_values {h : String} (hf : h ≠ "x-forwarded-for") (hp : h ≠ "x-proxy")
    {up : UpstreamRequest}
    (hsent : (handleRequest L http srcs peer req vm pool counters).sent = some up)
    (hleaves : LeavesRequest L srcs peer req vm h) :
    sentValues h up.headers = lastText (valuesOf host h req.headers) := by
  have hcourse := handleRequest_course L http srcs peer req vm pool counters
  obtain ⟨body, target, hr, -, hbuild⟩ := hcourse.of_sent hsent
  rw [buildRequest_ok hbuild, ← sentValues_headerMap]
  simp only [sentValues]
  rw [upstreamHeaders_lookup L srcs peer req body vm hf hp,
    lastSome_eq_none (hleaves body hr.arrived), Option.none_or]

theorem answered_values {h : String} {up : UpstreamRequest} {resp : UpstreamResponse} {a : Response}
    (hsent : (handleRequest L http srcs peer req vm pool counters).sent = some up)
    (hsend : http.send up = .ok resp)
    (ha : (handleRequest L http srcs peer req vm pool counters).outcome = .ok a)
    (hleaves : LeavesResponse L srcs peer req vm resp h) :
    sentValues h a.headers = lastText (valuesOf host h resp.headers) := by
  have hcourse := handleRequest_course L http srcs peer req vm pool counters
  obtain ⟨body, harrived, hfinal⟩ := hcourse.of_answer hsent hsend ha
  rw [finalResponse_ok hfinal, ← sentValues_headerMap]
  simp only [sentValues]
  rw [responsePhase_ctx, runAll_resHeader, lastSome_eq_none (hleaves body harrived), Option.none_or]
  rfl

/-- All values of a header that no plugin touches arrive, in both directions. -/
def HeadersKept : Prop :=
  ∀ (host : Host) (Src Fn Heap : Type) (L : Interpreter host Src Fn Heap) (http : Http)
    (srcs : Hook → PluginSources Src) (peer : String) (req : Request) (vm : Vm Fn Heap)
    (pool : UpstreamPool) (counters : Counters) (h : String) (up : UpstreamRequest),
    h ≠ "x-forwarded-for" → h ≠ "x-proxy" →
    (handleRequest L http srcs peer req vm pool counters).sent = some up →
    (LeavesRequest L srcs peer req vm h →
      sentValues h up.headers = valuesOf host h req.headers) ∧
    ∀ resp a, http.send up = .ok resp →
      (handleRequest L http srcs peer req vm pool counters).outcome = .ok a →
      LeavesResponse L srcs peer req vm resp h →
      sentValues h a.headers = valuesOf host h resp.headers

/-- Of a header that no plugin touches the last plain text value arrives, in both directions:
all of its values, that is, exactly if there is one at most and it is plain text. -/
theorem header_values {h : String} (hf : h ≠ "x-forwarded-for") (hp : h ≠ "x-proxy")
    {up : UpstreamRequest}
    (hsent : (handleRequest L http srcs peer req vm pool counters).sent = some up) :
    (LeavesRequest L srcs peer req vm h →
      sentValues h up.headers = lastText (valuesOf host h req.headers) ∧
      (sentValues h up.headers = valuesOf host h req.headers ↔
        OneText (valuesOf host h req.headers))) ∧
    ∀ resp a, http.send up = .ok resp →
      (handleRequest L http srcs peer req vm pool counters).outcome = .ok a →
      LeavesResponse L srcs peer req vm resp h →
      sentValues h a.headers = lastText (valuesOf host h resp.headers) ∧
      (sentValues h a.headers = valuesOf host h resp.headers ↔
        OneText (valuesOf host h resp.headers)) := by
  constructor
  · intro hleaves
    have hvalues := forwarded_values L http srcs peer req vm pool counters hf hp hsent hleaves
    refine ⟨hvalues, ?_⟩
    rw [hvalues, lastText_eq_iff]
  · intro resp a hsend ha hleaves
    have hvalues := answered_values L http srcs peer req vm pool counters hsent hsend ha hleaves
    refine ⟨hvalues, ?_⟩
    rw [hvalues, lastText_eq_iff]

end HeaderRuns

section Cookies

def cookieResponse : UpstreamResponse :=
  ⟨200, [("set-cookie", utf8 "a=1"), ("set-cookie", utf8 "b=2")], []⟩

def languageRequest : Request := ⟨"GET", "/", none, [("accept-language", utf8 "ko")], .ok []⟩

theorem language_kept : ∃ up, (handleRequest noLua (answering cookieResponse) (fun _ => noSources)
      "127.0.0.1" languageRequest noVm FailClosed.plainPool ∅).sent = some up ∧
    sentValues "accept-language" up.headers =
      valuesOf Host.plain "accept-language" languageRequest.headers := by
  have hforwarded : (handleRequest noLua (answering cookieResponse) (fun _ => noSources)
      "127.0.0.1" languageRequest noVm FailClosed.plainPool ∅).sent.isSome := by decide +kernel
  obtain ⟨up, hsent⟩ := Option.isSome_iff_exists.mp hforwarded
  have h := (header_values noLua (answering cookieResponse) (fun _ => noSources) "127.0.0.1"
    languageRequest noVm FailClosed.plainPool ∅ (h := "accept-language") (by decide) (by decide)
    hsent).1
  have hleaves : LeavesRequest noLua (fun _ => noSources) "127.0.0.1" languageRequest noVm
      "accept-language" := by
    intro body _ c hc
    exact absurd hc List.not_mem_nil
  exact ⟨up, hsent, (h hleaves).2.mpr ⟨by decide +kernel, by decide +kernel⟩⟩

/-- Of two cookies the client gets the second. -/
theorem cookie_lost : ¬ HeadersKept := by
  intro h
  have hforwarded : (handleRequest noLua (answering cookieResponse) (fun _ => noSources)
      "127.0.0.1" languageRequest noVm FailClosed.plainPool ∅).sent.isSome := by decide +kernel
  have hanswered : (response (handleRequest noLua (answering cookieResponse) (fun _ => noSources)
      "127.0.0.1" languageRequest noVm FailClosed.plainPool ∅).outcome).isSome := by decide +kernel
  obtain ⟨up, hsent⟩ := Option.isSome_iff_exists.mp hforwarded
  obtain ⟨a, ha⟩ := Option.isSome_iff_exists.mp hanswered
  have hleaves : LeavesResponse noLua (fun _ => noSources) "127.0.0.1" languageRequest noVm
      cookieResponse "set-cookie" := by
    intro body _ c hc
    exact absurd hc List.not_mem_nil
  have hc := (h Host.plain Unit Unit Unit noLua (answering cookieResponse) (fun _ => noSources)
    "127.0.0.1" languageRequest noVm FailClosed.plainPool ∅ "set-cookie" up (by decide) (by decide)
    hsent).2 cookieResponse a rfl (response_eq_some.mp ha) hleaves
  have hone := sentValues_length "set-cookie" a.headers
  have htwo : (valuesOf Host.plain "set-cookie" cookieResponse.headers).length = 2 := by
    decide +kernel
  rw [hc, htwo] at hone
  exact absurd hone (by decide)

end Cookies

section Target

/-- The path and query of a request, as its target has them. -/
def pathAndQuery (req : Request) : String :=
  match req.query with
  | none => req.path
  | some q => req.path ++ "?" ++ q

def BaseUrl (url base : String) : Prop :=
  ∃ slashes, url = base ++ slashes ∧ (∀ c ∈ slashes.toList, c = '/') ∧ base.toList.getLast? ≠ some '/'

/-- The request that left is the client's: method, body, and its target under the base URL. -/
def TargetKept (req : Request) (target : String) (up : UpstreamRequest) : Prop :=
  up.method = req.method ∧ req.body = .ok up.body ∧
    ∃ base, BaseUrl target base ∧ up.uri = base ++ pathAndQuery req

theorem trimEndSlashes_base (url : String) : BaseUrl url (trimEndSlashes url) := by
  have hsplit := List.takeWhile_append_dropWhile (p := (· == '/')) (l := url.toList.reverse)
  refine ⟨String.ofList (url.toList.reverse.takeWhile (· == '/')).reverse, ?_, ?_, ?_⟩
  · rw [trimEndSlashes, ← String.ofList_append, ← List.reverse_append, hsplit, List.reverse_reverse,
      String.ofList_toList]
  · intro c hc
    rw [String.toList_ofList, List.mem_reverse] at hc
    simpa using List.mem_takeWhile_imp hc
  · rw [trimEndSlashes, String.toList_ofList, List.getLast?_reverse]
    intro h
    have hne := List.head?_dropWhile_not (· == '/') url.toList.reverse
    rw [h] at hne
    simp at hne

theorem BaseUrl.eq_trim {url base : String} (h : BaseUrl url base) : base = trimEndSlashes url := by
  obtain ⟨slashes, rfl, hslashes, hbase⟩ := h
  have hhead : base.toList.reverse.head? ≠ some '/' := by simpa using hbase
  have hdrop : (slashes.toList.reverse ++ base.toList.reverse).dropWhile (· == '/') =
      base.toList.reverse := by
    rw [List.dropWhile_append_of_pos (by simpa using hslashes)]
    cases hr : base.toList.reverse with
    | nil => rfl
    | cons c cs =>
      have hc : c ≠ '/' := by simpa [hr] using hhead
      simp [hc]
  rw [trimEndSlashes, String.toList_append, List.reverse_append, hdrop, List.reverse_reverse,
    String.ofList_toList]

theorem append_ne_self {s t : String} (ht : t ≠ "") : s ≠ s ++ t := by
  intro h
  have hlen := congrArg String.length h
  rw [String.length_append] at hlen
  apply ht
  rw [← String.length_eq_zero_iff]
  omega

variable {host : Host} {Src Fn Heap : Type} (L : Interpreter host Src Fn Heap) (http : Http)
  (srcs : Hook → PluginSources Src) (peer : String) (req : Request) (vm : Vm Fn Heap)
  (pool : UpstreamPool) (counters : Counters)

/-- The target of a request goes on without its query. -/
theorem target_kept_iff {target : String} {up : UpstreamRequest}
    (htarget : (handleRequest L http srcs peer req vm pool counters).target = some target)
    (hsent : (handleRequest L http srcs peer req vm pool counters).sent = some up) :
    TargetKept req target up ↔ req.query = none := by
  have hcourse := handleRequest_course L http srcs peer req vm pool counters
  obtain ⟨body, target', hr, htarget', hbuild⟩ := hcourse.of_sent hsent
  obtain rfl : target = target' := Option.some.inj (htarget.symm.trans htarget')
  rw [buildRequest_ok hbuild]
  constructor
  · rintro ⟨-, -, base, hbase, huri⟩
    dsimp only at huri
    rw [hbase.eq_trim] at huri
    cases hq : req.query with
    | none => rfl
    | some q =>
      have hpath : pathAndQuery req = req.path ++ ("?" ++ q) := by
        simp [pathAndQuery, hq, String.append_assoc]
      rw [hpath, ← String.append_assoc] at huri
      exact absurd huri (append_ne_self (by simp))
  · intro hq
    refine ⟨rfl, hr.arrived, trimEndSlashes target, trimEndSlashes_base target, ?_⟩
    simp [pathAndQuery, hq]

def TargetsKept : Prop :=
  ∀ (host : Host) (Src Fn Heap : Type) (L : Interpreter host Src Fn Heap) (http : Http)
    (srcs : Hook → PluginSources Src) (peer : String) (req : Request) (vm : Vm Fn Heap)
    (pool : UpstreamPool) (counters : Counters) (target : String) (up : UpstreamRequest),
    (handleRequest L http srcs peer req vm pool counters).target = some target →
    (handleRequest L http srcs peer req vm pool counters).sent = some up → TargetKept req target up

def searchRequest : Request := ⟨"GET", "/search", some "q=1", [], .ok []⟩

theorem plain_target_kept : ∃ up, (handleRequest noLua Http.down (fun _ => noSources) "127.0.0.1"
      FailClosed.plainRequest noVm FailClosed.plainPool ∅).sent = some up ∧
    (TargetKept FailClosed.plainRequest "http://127.0.0.1:3000" up ↔
      FailClosed.plainRequest.query = none) := by
  have hforwarded : (handleRequest noLua Http.down (fun _ => noSources) "127.0.0.1"
      FailClosed.plainRequest noVm FailClosed.plainPool ∅).sent.isSome := by decide
  obtain ⟨up, hsent⟩ := Option.isSome_iff_exists.mp hforwarded
  have htarget : (handleRequest noLua Http.down (fun _ => noSources) "127.0.0.1"
      FailClosed.plainRequest noVm FailClosed.plainPool ∅).target = some "http://127.0.0.1:3000" := by
    decide
  exact ⟨up, hsent, target_kept_iff noLua Http.down (fun _ => noSources) "127.0.0.1"
    FailClosed.plainRequest noVm FailClosed.plainPool ∅ htarget hsent⟩

/-- What a client searches for does not reach the upstream. -/
theorem query_lost : ¬ TargetsKept := by
  intro h
  have huri : (handleRequest noLua Http.down (fun _ => noSources) "127.0.0.1" searchRequest noVm
      FailClosed.plainPool ∅).sent.map UpstreamRequest.uri = some "http://127.0.0.1:3000/search" := by
    decide
  have htarget : (handleRequest noLua Http.down (fun _ => noSources) "127.0.0.1" searchRequest noVm
      FailClosed.plainPool ∅).target = some "http://127.0.0.1:3000" := by decide
  obtain ⟨up, hsent, hup⟩ := Option.map_eq_some_iff.mp huri
  obtain ⟨-, -, base, hbase, hu⟩ := h Host.plain Unit Unit Unit noLua Http.down (fun _ => noSources)
    "127.0.0.1" searchRequest noVm FailClosed.plainPool ∅ _ up htarget hsent
  rw [hup, hbase.eq_trim] at hu
  exact absurd hu (by decide)

end Target

end LuaProxy.Passthrough
