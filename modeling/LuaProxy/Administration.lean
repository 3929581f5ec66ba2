import LuaProxy.PluginReload
import LuaProxy.JsonTemplate
import LuaProxy.Handler

/-! The admin API (`admin.rs`) and the certificates it rotates (`tls.rs`): what each request
does, and what its answer tells the operator. -/
namespace LuaProxy.Administration
open Text Context Engine Handler PluginReload JsonTemplate

section Tls

structure TlsConfig where
  cert : String
  key : String
  deriving DecidableEq, Repr

/-- The TLS libraries: what a PEM file holds, and the acceptor of certificates and a key. -/
structure TlsLibrary (File Cert Key Acceptor : Type) where
  certs : File → List (Except String Cert)
  pkcs8PrivateKeys : File → List (Except String Key)
  withSingleCert : List Cert → Key → Except String Acceptor

/-- `.context`: the text that is shown in place of the error's own. -/
def context {α : Type} (text : String) : Except String α → Except String α
  | .ok a => .ok a
  | .error _ => .error text

/-- `collect` into a result: the first error, if there is one. -/
def collect {α : Type} : List (Except String α) → Except String (List α)
  | [] => .ok []
  | r :: rs => do
    let a ← r
    let as ← collect rs
    .ok (a :: as)

variable {File Cert Key Acceptor : Type} (lib : TlsLibrary File Cert Key Acceptor)
  (openFile : String → Except String File)

def buildAcceptor (cfg : TlsConfig) : Except String Acceptor := do
  let certFile ← context ("Cannot open cert file: " ++ cfg.cert) (openFile cfg.cert)
  let keyFile ← context ("Cannot open key file: " ++ cfg.key) (openFile cfg.key)
  let certs ← context "Failed to parse TLS certificate" (collect (lib.certs certFile))
  let keys ← context "Failed to parse private key" (collect (lib.pkcs8PrivateKeys keyFile))
  match keys with
  | [] => .error "No private key found in key file"
  | key :: _ => context "Failed to build TLS config" (lib.withSingleCert certs key)

structure HotTlsAcceptor (Acceptor : Type) where
  inner : Acceptor
  cfg : TlsConfig

namespace HotTlsAcceptor

def new (cfg : TlsConfig) : Except String (HotTlsAcceptor Acceptor) := do
  let acceptor ← buildAcceptor lib openFile cfg
  .ok ⟨acceptor, cfg⟩

def get (self : HotTlsAcceptor Acceptor) : Acceptor := self.inner

def reload (self : HotTlsAcceptor Acceptor) : HotTlsAcceptor Acceptor × Except String Unit :=
  match buildAcceptor lib openFile self.cfg with
  | .ok acceptor => ({ self with inner := acceptor }, .ok ())
  | .error e => (self, .error e)

end HotTlsAcceptor

/-- The acceptor `main` starts with: none if there is no certificate, or it cannot be used. -/
def startAcceptor (certExists : Bool) (cfg : TlsConfig) : Option (HotTlsAcceptor Acceptor) :=
  if certExists then (HotTlsAcceptor.new lib openFile cfg).toOption else none

end Tls

section Requests
variable {Src File Cert Key Acceptor : Type}

/-- What a request of the admin API reads from outside. -/
structure Outside (Src File : Type) where
  reads : String → Option Src
  openFile : String → Except String File
  /-- `metrics::gather` -/
  gather : String

/-- What the admin API shares with the listeners. -/
structure Live (Src Acceptor : Type) where
  srcs : PluginSources Src
  tls : Option (HotTlsAcceptor Acceptor)

def okJson (body : String) : Response :=
  ⟨200, AList.insert "content-type" "application/json" ∅, utf8 body⟩

variable (lib : TlsLibrary File Cert Key Acceptor) (cfg : PluginsConfig)

def handleAdmin (out : Outside Src File) (method path : String) (s : Live Src Acceptor) :
    Live Src Acceptor × Response :=
  match method, path with
  | "POST", "/reload" =>
    let (srcs, report) := PluginReload.reload cfg ⟨.admin, out.reads⟩ s.srcs
    ({ s with srcs }, okJson report.body)
  | "POST", "/reload/tls" =>
    match s.tls with
    | some acceptor =>
      match acceptor.reload lib out.openFile with
      | (acceptor, .ok _) =>
        ({ s with tls := some acceptor }, okJson "\x7b\"status\":\"ok\",\"message\":\"TLS reloaded\"\x7d")
      | (acceptor, .error e) =>
        ({ s with tls := some acceptor },
          okJson ("\x7b\"status\":\"error\",\"message\":\"" ++ e ++ "\"\x7d"))
    | none => (s, okJson "\x7b\"status\":\"error\",\"message\":\"TLS not enabled\"\x7d")
  | "GET", "/metrics" =>
    (s, ⟨200, AList.insert "content-type" "text/plain; version=0.0.4" ∅, utf8 out.gather⟩)
  | "GET", "/health" => (s, okJson "\x7b\"status\":\"ok\"\x7d")
  | "GET", "/plugins" => (s, okJson (pluginsBody s.srcs))
  | _, _ =>
    (s, ⟨404, AList.insert "content-type" "application/json" ∅, utf8 "\x7b\"error\":\"not found\"\x7d"⟩)

end Requests

section Meaning

/-- What an answer in JSON is about. -/
inductive Note
  | reloaded
  | tlsReloaded
  | tlsFailed (e : String)
  | tlsDisabled
  | healthy
  | plugins (names : List String)
  | notFound
  deriving DecidableEq, Repr

/-- The texts in a note that come from outside. -/
def Note.texts : Note → List String
  | .tlsFailed e => [e]
  | .plugins names => names
  | _ => []

def Note.code : Note → UInt16
  | .notFound => 404
  | _ => 200

def reportOf (status message : String) : List (Bytes × Slot) :=
  [(utf8 "status", .text (utf8 status)), (utf8 "message", .text (utf8 message))]

def Note.members : Note → List (Bytes × Slot)
  | .reloaded => reportOf "ok" "plugins reloaded"
  | .tlsReloaded => reportOf "ok" "TLS reloaded"
  | .tlsFailed e => reportOf "error" e
  | .tlsDisabled => reportOf "error" "TLS not enabled"
  | .healthy => [(utf8 "status", .text (utf8 "ok"))]
  | .plugins names => [(utf8 "plugins", .list (names.map utf8))]
  | .notFound => [(utf8 "error", .text (utf8 "not found"))]

/-- The answer is JSON that says so. -/
structure Says (resp : Response) (note : Note) : Prop where
  status : resp.status = note.code
  contentType : resp.headers.lookup "content-type" = some "application/json"
  body : Json.Decodes resp.body (objectValue note.members)

variable {File Cert Key Acceptor : Type} (lib : TlsLibrary File Cert Key Acceptor)
  (openFile : String → Except String File) (cfg : TlsConfig)

/-- The files as they were opened. -/
structure Opened (certFile keyFile : File) : Prop where
  cert : openFile cfg.cert = .ok certFile
  key : openFile cfg.key = .ok keyFile

/-- The certificates and keys of the files, in order. -/
structure Parsed (certFile keyFile : File) (certs : List Cert) (keys : List Key) : Prop where
  opened : Opened openFile cfg certFile keyFile
  certs : lib.certs certFile = certs.map .ok
  keys : lib.pkcs8PrivateKeys keyFile = keys.map .ok

/-- What building an acceptor comes to. -/
inductive Built : Except String Acceptor → Prop
  | noCert {e : String} (h : openFile cfg.cert = .error e) :
      Built (.error ("Cannot open cert file: " ++ cfg.cert))
  | noKeyFile {certFile : File} {e : String} (hcert : openFile cfg.cert = .ok certFile)
      (h : openFile cfg.key = .error e) : Built (.error ("Cannot open key file: " ++ cfg.key))
  | badCert {certFile keyFile : File} {e : String} (ho : Opened openFile cfg certFile keyFile)
      (h : .error e ∈ lib.certs certFile) : Built (.error "Failed to parse TLS certificate")
  | badKey {certFile keyFile : File} {certs : List Cert} {e : String}
      (ho : Opened openFile cfg certFile keyFile) (hc : lib.certs certFile = certs.map .ok)
      (h : .error e ∈ lib.pkcs8PrivateKeys keyFile) : Built (.error "Failed to parse private key")
  | noKey {certFile keyFile : File} {certs : List Cert}
      (hp : Parsed lib openFile cfg certFile keyFile certs []) :
      Built (.error "No private key found in key file")
  | refused {certFile keyFile : File} {certs : List Cert} {key : Key} {keys : List Key} {e : String}
      (hp : Parsed lib openFile cfg certFile keyFile certs (key :: keys))
      (h : lib.withSingleCert certs key = .error e) : Built (.error "Failed to build TLS config")
  | acceptor {certFile keyFile : File} {certs : List Cert} {key : Key} {keys : List Key}
      {a : Acceptor} (hp : Parsed lib openFile cfg certFile keyFile certs (key :: keys))
      (h : lib.withSingleCert certs key = .ok a) : Built (.ok a)

variable {lib openFile cfg}

theorem collect_eq_ok {α : Type} {rs : List (Except String α)} {as : List α} :
    collect rs = .ok as ↔ rs = as.map .ok := by
  induction rs generalizing as with
  | nil => cases as <;> simp [collect]
  | cons r rs ih =>
    cases r with
    | error e => cases as <;> simp [collect, bind, Except.bind]
    | ok a =>
      cases hrs : collect rs with
      | error e =>
        refine iff_of_false (by simp [collect, hrs, bind, Except.bind]) ?_
        intro h
        cases as with
        | nil => simp at h
        | cons b as =>
          have hok := ih.mpr (List.cons.inj h).2
          rw [hrs] at hok
          simp at hok
      | ok as' =>
        have hmap := ih.mp hrs
        cases as with
        | nil => simp [collect, hrs, bind, Except.bind]
        | cons b as =>
          have hinj : Function.Injective (fun a : α => (.ok a : Except String α)) :=
            fun _ _ h => Except.ok.inj h
          rw [hmap, List.map_cons, List.cons.injEq, Except.ok.injEq, hinj.list_map.eq_iff, ← hmap]
          simp [collect, hrs, bind, Except.bind]

theorem collect_error {α : Type} {rs : List (Except String α)} {e : String} (h : collect rs = .error e) :
    .error e ∈ rs := by
  induction rs with
  | nil => simp [collect] at h
  | cons r rs ih =>
    cases r with
    | error e' =>
      have he : e' = e := by simpa [collect, bind, Except.bind] using h
      simp [he]
    | ok a =>
      cases hrs : collect rs with
      | error e' =>
        have he : e' = e := by simpa [collect, hrs, bind, Except.bind] using h
        exact List.mem_cons_of_mem _ (ih (by rw [hrs, he]))
      | ok as => simp [collect, hrs, bind, Except.bind] at h

theorem collect_of_error {α : Type} {rs : List (Except String α)} {e : String} (h : .error e ∈ rs) :
    ∃ e', collect rs = .error e' := by
  cases hc : collect rs with
  | error e' => exact ⟨e', rfl⟩
  | ok as =>
    rw [collect_eq_ok.mp hc] at h
    simp at h

theorem Built.eq {r : Except String Acceptor} (h : Built lib openFile cfg r) :
    buildAcceptor lib openFile cfg = r := by
  cases h with
  | noCert h => simp [buildAcceptor, context, h, bind, Except.bind]
  | noKeyFile hcert h => simp [buildAcceptor, context, hcert, h, bind, Except.bind]
  | badCert ho h =>
    obtain ⟨e', he⟩ := collect_of_error h
    simp [buildAcceptor, context, ho.cert, ho.key, he, bind, Except.bind]
  | badKey ho hc h =>
    obtain ⟨e', he⟩ := collect_of_error h
    simp [buildAcceptor, context, ho.cert, ho.key, collect_eq_ok.mpr hc, he, bind, Except.bind]
  | noKey hp =>
    simp [buildAcceptor, context, hp.opened.cert, hp.opened.key, collect_eq_ok.mpr hp.certs,
      collect_eq_ok.mpr hp.keys, bind, Except.bind]
  | refused hp h =>
    simp [buildAcceptor, context, hp.opened.cert, hp.opened.key, collect_eq_ok.mpr hp.certs,
      collect_eq_ok.mpr hp.keys, h, bind, Except.bind]
  | acceptor hp h =>
    simp [buildAcceptor, context, hp.opened.cert, hp.opened.key, collect_eq_ok.mpr hp.certs,
      collect_eq_ok.mpr hp.keys, h, bind, Except.bind]

theorem built (lib : TlsLibrary File Cert Key Acceptor) (openFile : String → Except String File)
    (cfg : TlsConfig) : Built lib openFile cfg (buildAcceptor lib openFile cfg) := by
  have hfinal : ∀ {r}, Built lib openFile cfg r → Built lib openFile cfg (buildAcceptor lib openFile cfg) :=
    fun h => h.eq ▸ h
  cases hcert : openFile cfg.cert with
  | error e => exact hfinal (.noCert hcert)
  | ok certFile =>
    cases hkey : openFile cfg.key with
    | error e => exact hfinal (.noKeyFile hcert hkey)
    | ok keyFile =>
      have ho : Opened openFile cfg certFile keyFile := ⟨hcert, hkey⟩
      cases hcs : collect (lib.certs certFile) with
      | error e => exact hfinal (.badCert ho (collect_error hcs))
      | ok certs =>
        cases hks : collect (lib.pkcs8PrivateKeys keyFile) with
        | error e => exact hfinal (.badKey ho (collect_eq_ok.mp hcs) (collect_error hks))
        | ok keys =>
          have hp : Parsed lib openFile cfg certFile keyFile certs keys :=
            ⟨ho, collect_eq_ok.mp hcs, collect_eq_ok.mp hks⟩
          cases keys with
          | nil => exact hfinal (.noKey hp)
          | cons key keys =>
            cases hconfig : lib.withSingleCert certs key with
            | error e => exact hfinal (.refused hp hconfig)
            | ok a => exact hfinal (.acceptor hp hconfig)

end Meaning

section Notes

theorem plain_of_all {s : Bytes} (h : s.all (fun b => decide (Json.Unescaped b)) = true) : Plain s := by
  intro b hb
  exact of_decide_eq_true (List.all_eq_true.mp h b hb)

def Note.text : Note → String
  | .reloaded => "\x7b\"status\":\"ok\",\"message\":\"plugins reloaded\"\x7d"
  | .tlsReloaded => "\x7b\"status\":\"ok\",\"message\":\"TLS reloaded\"\x7d"
  | .tlsFailed e => "\x7b\"status\":\"error\",\"message\":\"" ++ e ++ "\"\x7d"
  | .tlsDisabled => "\x7b\"status\":\"error\",\"message\":\"TLS not enabled\"\x7d"
  | .healthy => "\x7b\"status\":\"ok\"\x7d"
  | .plugins names =>
    "\x7b\"plugins\":[" ++ ",".intercalate (names.map fun s => "\"" ++ s ++ "\"") ++ "]\x7d"
  | .notFound => "\x7b\"error\":\"not found\"\x7d"

theorem utf8_names (names : List String) :
    utf8 (",".intercalate (names.map fun s => "\"" ++ s ++ "\"")) ++ utf8 "]\x7d" =
      elementsText (names.map utf8) [125] := by
  have hquote : utf8 "\"" = [34] := by decide
  have hcomma : utf8 "," = [44] := by decide
  have hclose : utf8 "]\x7d" = [93, 125] := by decide
  induction names with
  | nil => rfl
  | cons n names ih =>
    cases names with
    | nil => simp [elementsText, hquote, hclose]
    | cons n' names =>
      rw [List.map_cons, String.intercalate_cons_of_ne_nil (by simp), utf8_append, utf8_append,
        List.append_assoc, ih]
      simp [elementsText, hquote, hcomma]

theorem utf8_failure (e : String) : utf8 (Note.tlsFailed e).text = objectText (Note.tlsFailed e).members := by
  have hopen : utf8 "\x7b\"status\":\"error\",\"message\":\"" =
      123 :: 34 :: (utf8 "status" ++ 34 :: 58 :: 34 :: (utf8 "error" ++ 34 :: 44 :: 34 ::
        (utf8 "message" ++ [34, 58, 34]))) := by decide +kernel
  have hclose : utf8 "\"\x7d" = [34, 125] := by decide +kernel
  have htext : utf8 (Note.tlsFailed e).text =
      utf8 "\x7b\"status\":\"error\",\"message\":\"" ++ utf8 e ++ utf8 "\"\x7d" := by
    rw [← utf8_append, ← utf8_append]
    rfl
  rw [htext, hopen, hclose]
  simp only [Note.members, reportOf, objectText, membersText, slotText, List.append_assoc,
    List.cons_append, List.nil_append]

theorem utf8_plugins (names : List String) :
    utf8 (Note.plugins names).text = objectText (Note.plugins names).members := by
  have hopen : utf8 "\x7b\"plugins\":[" = 123 :: 34 :: (utf8 "plugins" ++ [34, 58, 91]) := by
    decide +kernel
  have htext : utf8 (Note.plugins names).text = utf8 "\x7b\"plugins\":[" ++
      (utf8 (",".intercalate (names.map fun s => "\"" ++ s ++ "\"")) ++ utf8 "]\x7d") := by
    rw [← utf8_append, ← utf8_append, ← String.append_assoc]
    rfl
  rw [htext, utf8_names, hopen]
  simp only [Note.members, objectText, membersText, slotText, List.append_assoc, List.cons_append,
    List.nil_append]

theorem utf8_text (note : Note) : utf8 note.text = objectText note.members := by
  cases note with
  | tlsFailed e => exact utf8_failure e
  | plugins names => exact utf8_plugins names
  | _ => decide +kernel

theorem members_plain_names (note : Note) : ∀ m ∈ note.members, Plain m.1 := by
  have hstatus : Plain (utf8 "status") := plain_of_all (by decide)
  have hmessage : Plain (utf8 "message") := plain_of_all (by decide)
  have hplugins : Plain (utf8 "plugins") := plain_of_all (by decide)
  have herror : Plain (utf8 "error") := plain_of_all (by decide)
  cases note <;> simp [Note.members, reportOf, hstatus, hmessage, hplugins, herror]

theorem members_plain_iff (note : Note) :
    (∀ m ∈ note.members, ∀ s ∈ m.2.strings, Plain s) ↔ ∀ t ∈ note.texts, Plain (utf8 t) := by
  have hok : Plain (utf8 "ok") := plain_of_all (by decide)
  have herror : Plain (utf8 "error") := plain_of_all (by decide)
  have hreloaded : Plain (utf8 "plugins reloaded") := plain_of_all (by decide)
  have htls : Plain (utf8 "TLS reloaded") := plain_of_all (by decide)
  have hdisabled : Plain (utf8 "TLS not enabled") := plain_of_all (by decide)
  have hnotFound : Plain (utf8 "not found") := plain_of_all (by decide)
  cases note <;> simp [Note.members, Note.texts, reportOf, Slot.strings, hok, herror, hreloaded, htls,
    hdisabled, hnotFound]

/-- A note is read as it is meant exactly if its texts are plain. -/
theorem decodes_note (note : Note) :
    Json.Decodes (utf8 note.text) (objectValue note.members) ↔ ∀ t ∈ note.texts, Plain (utf8 t) := by
  have hvalid : ValidUtf8 (objectText note.members) := ⟨note.text, utf8_text note⟩
  have hne : note.members ≠ [] := by
    cases note <;> simp [Note.members, reportOf]
  rw [utf8_text, decodes_iff hvalid (members_plain_names note) hne, members_plain_iff]

end Notes

section Answers
variable {Src File Cert Key Acceptor : Type} {lib : TlsLibrary File Cert Key Acceptor}
  {cfg : PluginsConfig} {out : Outside Src File} {s s' : Live Src Acceptor} {method path : String}
  {note note' : Note}

/-- What the admin API answers in JSON. -/
def routes : List (String × String) :=
  [("POST", "/reload"), ("POST", "/reload/tls"), ("GET", "/health"), ("GET", "/plugins"),
    ("GET", "/metrics")]

/-- What a request is to do, and what came of it. -/
inductive Happened (lib : TlsLibrary File Cert Key Acceptor) (cfg : PluginsConfig)
    (out : Outside Src File) (s : Live Src Acceptor) : String → String → Note → Live Src Acceptor → Prop
  | reloaded : Happened lib cfg out s "POST" "/reload" .reloaded
      { s with srcs := PluginSources.load cfg out.reads }
  | tlsReloaded {a : HotTlsAcceptor Acceptor} {inner : Acceptor} (h : s.tls = some a)
      (hb : Built lib out.openFile a.cfg (.ok inner)) :
      Happened lib cfg out s "POST" "/reload/tls" .tlsReloaded { s with tls := some ⟨inner, a.cfg⟩ }
  | tlsFailed {a : HotTlsAcceptor Acceptor} {e : String} (h : s.tls = some a)
      (hb : Built lib out.openFile a.cfg (.error e)) :
      Happened lib cfg out s "POST" "/reload/tls" (.tlsFailed e) s
  | tlsDisabled (h : s.tls = none) : Happened lib cfg out s "POST" "/reload/tls" .tlsDisabled s
  | healthy : Happened lib cfg out s "GET" "/health" .healthy s
  | plugins : Happened lib cfg out s "GET" "/plugins" (.plugins s.srcs.pipeline) s
  | notFound {method path : String} (h : (method, path) ∉ routes) :
      Happened lib cfg out s method path .notFound s

def Note.answer (note : Note) : Response :=
  ⟨note.code, AList.insert "content-type" "application/json" ∅, utf8 note.text⟩

theorem Happened.eq (h : Happened lib cfg out s method path note s') :
    handleAdmin lib cfg out method path s = (s', note.answer) := by
  cases h with
  | reloaded => rfl
  | tlsReloaded h hb => simp only [handleAdmin, h, HotTlsAcceptor.reload, hb.eq]; rfl
  | tlsFailed h hb =>
    obtain ⟨srcs, tls⟩ := s
    obtain rfl : tls = _ := h
    simp only [handleAdmin, HotTlsAcceptor.reload, hb.eq]
    rfl
  | tlsDisabled h => simp only [handleAdmin, h]; rfl
  | healthy => rfl
  | plugins => rfl
  | notFound h =>
    simp only [routes, List.mem_cons, List.not_mem_nil, or_false, Prod.mk.injEq, not_or] at h
    unfold handleAdmin
    split
    · exact absurd ⟨rfl, rfl⟩ h.1
    · exact absurd ⟨rfl, rfl⟩ h.2.1
    · exact absurd ⟨rfl, rfl⟩ h.2.2.2.2
    · exact absurd ⟨rfl, rfl⟩ h.2.2.1
    · exact absurd ⟨rfl, rfl⟩ h.2.2.2.1
    · rfl

theorem happened (lib : TlsLibrary File Cert Key Acceptor) (cfg : PluginsConfig) (out : Outside Src File)
    (s : Live Src Acceptor) (hm : (method, path) ≠ ("GET", "/metrics")) :
    ∃ note s', Happened lib cfg out s method path note s' := by
  by_cases hroute : (method, path) ∈ routes
  · simp only [routes, List.mem_cons, List.not_mem_nil, or_false, Prod.mk.injEq] at hroute
    rcases hroute with ⟨rfl, rfl⟩ | ⟨rfl, rfl⟩ | ⟨rfl, rfl⟩ | ⟨rfl, rfl⟩ | ⟨rfl, rfl⟩
    · exact ⟨_, _, .reloaded⟩
    · cases htls : s.tls with
      | none => exact ⟨_, _, .tlsDisabled htls⟩
      | some a =>
        have hb := built lib out.openFile a.cfg
        cases hr : buildAcceptor lib out.openFile a.cfg with
        | ok inner => exact ⟨_, _, .tlsReloaded htls (hr ▸ hb)⟩
        | error e => exact ⟨_, _, .tlsFailed htls (hr ▸ hb)⟩
    · exact ⟨_, _, .healthy⟩
    · exact ⟨_, _, .plugins⟩
    · exact absurd rfl hm
  · exact ⟨_, _, .notFound hroute⟩

theorem says_iff (note : Note) : Says note.answer note ↔ ∀ t ∈ note.texts, Plain (utf8 t) := by
  rw [← decodes_note]
  constructor
  · exact fun h => h.body
  · intro h
    exact ⟨rfl, AList.lookup_insert _, h⟩

/-- Every request but for the metrics does what it is for, or nothing if it cannot, and its answer
is JSON that says so exactly if the texts in it need no escapes. -/
theorem admin_answers (lib : TlsLibrary File Cert Key Acceptor) (cfg : PluginsConfig)
    (out : Outside Src File) (s : Live Src Acceptor) (hm : (method, path) ≠ ("GET", "/metrics")) :
    ∃ note, Happened lib cfg out s method path note (handleAdmin lib cfg out method path s).1 ∧
      (Says (handleAdmin lib cfg out method path s).2 note ↔ ∀ t ∈ note.texts, Plain (utf8 t)) := by
  obtain ⟨note, s', h⟩ := happened lib cfg out s hm
  rw [h.eq]
  exact ⟨note, h, says_iff note⟩

def plainTls : TlsLibrary String String String String where
  certs file := [.ok file]
  pkcs8PrivateKeys file := [.ok file]
  withSingleCert certs key := .ok (String.join certs ++ key)

/-- The key is gone, and its path has a quote in it. -/
def keyGone : Outside String String where
  reads _ := none
  openFile path := if path = "cert.pem" then .ok "cert" else .error "not found"
  gather := ""

def quotedKey : HotTlsAcceptor String := ⟨"old", "cert.pem", "my \"key\".pem"⟩

theorem lost_key_answered : ∃ note, Happened plainTls ⟨"plugins", []⟩ keyGone
      ⟨PluginSources.load ⟨"plugins", []⟩ fun _ => none, some quotedKey⟩ "POST" "/reload/tls" note
      (handleAdmin plainTls ⟨"plugins", []⟩ keyGone "POST" "/reload/tls"
        ⟨PluginSources.load ⟨"plugins", []⟩ fun _ => none, some quotedKey⟩).1 ∧
    (Says (handleAdmin plainTls ⟨"plugins", []⟩ keyGone "POST" "/reload/tls"
        ⟨PluginSources.load ⟨"plugins", []⟩ fun _ => none, some quotedKey⟩).2 note ↔
      ∀ t ∈ note.texts, Plain (utf8 t)) :=
  admin_answers plainTls ⟨"plugins", []⟩ keyGone _ (by decide)

def Reported (tls : TlsConfig) : Prop := Plain (utf8 tls.cert) ∧ Plain (utf8 tls.key)

theorem context_plain {prefixText path : String} (hp : Plain (utf8 prefixText)) :
    Plain (utf8 (prefixText ++ path)) ↔ Plain (utf8 path) := by
  rw [utf8_append]
  constructor
  · exact fun h b hb => h b (List.mem_append_right _ hb)
  · intro h b hb
    rcases List.mem_append.mp hb with hb | hb
    · exact hp b hb
    · exact h b hb

theorem built_plain {tls : TlsConfig} {openFile : String → Except String File} {e : String}
    (h : Reported tls) (hb : Built lib openFile tls (.error e)) : Plain (utf8 e) := by
  cases hb with
  | noCert => exact (context_plain (plain_of_all (by decide))).mpr h.1
  | noKeyFile => exact (context_plain (plain_of_all (by decide))).mpr h.2
  | badCert => exact plain_of_all (by decide)
  | badKey => exact plain_of_all (by decide)
  | noKey => exact plain_of_all (by decide)
  | refused => exact plain_of_all (by decide)

end Answers

end LuaProxy.Administration
