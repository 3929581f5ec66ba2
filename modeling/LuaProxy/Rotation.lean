import LuaProxy.Administration
import LuaProxy.Refinement

/-! Certificates that are rotated while connections come in. A `POST /reload/tls` reads the files
and stores its acceptor as two steps, and any number of them may be under way. -/
namespace LuaProxy.Rotation
open Text Context Engine Handler JsonTemplate Administration Transition

section Machine
variable {File Cert Key Acceptor : Type}

/-- A connection, with the acceptor it was accepted with: from which files that was built, and the
answers that had been given by then, each with the files its request had read. -/
structure Accepted (Acceptor : Type) where
  version : ℕ
  acceptor : Acceptor
  told : List (ℕ × Response)

structure State (File Acceptor : Type) where
  /-- All states of the files there have been; the last one is there. -/
  disks : List (String → Except String File)
  tls : HotTlsAcceptor Acceptor
  /-- The files the live acceptor was built from. -/
  version : ℕ
  /-- What the requests under way have built and not stored yet. -/
  reloads : List (ℕ × Except String Acceptor)
  answers : List (ℕ × Response)
  conns : List (Accepted Acceptor)

inductive Event (File : Type)
  | change (openFile : String → Except String File)
  | build
  | finish (i : ℕ)
  | accept

/-- The second step of `HotTlsAcceptor::reload`, and the answer to the request. -/
def store (tls : HotTlsAcceptor Acceptor) : Except String Acceptor → HotTlsAcceptor Acceptor × Note
  | .ok inner => ({ tls with inner }, .tlsReloaded)
  | .error e => (tls, .tlsFailed e)

variable (lib : TlsLibrary File Cert Key Acceptor)

def step (s : State File Acceptor) : Event File → Option (State File Acceptor)
  | .change openFile => some { s with disks := s.disks ++ [openFile] }
  | .build =>
    match s.disks.getLast? with
    | some openFile => some { s with
        reloads := s.reloads ++ [(s.disks.length - 1, buildAcceptor lib openFile s.tls.cfg)] }
    | none => none
  | .finish i =>
    match s.reloads[i]? with
    | some (v, built) =>
      let (tls, note) := store s.tls built
      some { s with
        tls
        version := match built with
          | .ok _ => v
          | .error _ => s.version
        reloads := s.reloads.eraseIdx i
        answers := s.answers ++ [(v, note.answer)] }
    | none => none
  | .accept => some { s with conns := s.conns ++ [⟨s.version, s.tls.get, s.answers⟩] }

/-- An acceptor that is stored was built from no older files than the one that is live. -/
def InOrder (s : State File Acceptor) : Event File → Prop
  | .finish i => ∀ v inner, s.reloads[i]? = some (v, .ok inner) → s.version ≤ v
  | _ => True

/-- The proxy has started with an acceptor. -/
structure Started (cfg : TlsConfig) (s : State File Acceptor) : Prop where
  disk : ∃ openFile, s.disks = [openFile] ∧ startAcceptor lib openFile true cfg = some s.tls
  version : s.version = 0
  alone : s.reloads = [] ∧ s.answers = [] ∧ s.conns = []

/-- What building from some files of before comes to. -/
def BuiltAt (cfg : TlsConfig) (disks : List (String → Except String File)) (v : ℕ)
    (r : Except String Acceptor) : Prop :=
  ∃ openFile, disks[v]? = some openFile ∧ Built lib openFile cfg r

/-- An answer tells what came of the files that were read. -/
def Truthful (cfg : TlsConfig) (disks : List (String → Except String File)) (a : ℕ × Response) : Prop :=
  (∃ inner, BuiltAt lib cfg disks a.1 (.ok inner) ∧ a.2 = Note.tlsReloaded.answer) ∨
    ∃ e, BuiltAt lib cfg disks a.1 (.error e) ∧ a.2 = (Note.tlsFailed e).answer

/-- The acceptor was built from files of before, and from none older than a client was told of. -/
structure Current (cfg : TlsConfig) (disks : List (String → Except String File))
    (conn : Accepted Acceptor) : Prop where
  built : BuiltAt lib cfg disks conn.version (.ok conn.acceptor)
  newest : ∀ a ∈ conn.told, Says a.2 .tlsReloaded → a.1 ≤ conn.version

structure Inv (cfg : TlsConfig) (s : State File Acceptor) : Prop where
  paths : s.tls.cfg = cfg
  live : Current lib cfg s.disks ⟨s.version, s.tls.inner, s.answers⟩
  reloads : ∀ r ∈ s.reloads, BuiltAt lib cfg s.disks r.1 r.2
  answers : ∀ a ∈ s.answers, Truthful lib cfg s.disks a
  conns : ∀ conn ∈ s.conns, Current lib cfg s.disks conn

end Machine

section Runs
variable {File Cert Key Acceptor : Type} {lib : TlsLibrary File Cert Key Acceptor} {cfg : TlsConfig}
  {disks : List (String → Except String File)} {s s' : State File Acceptor}

theorem BuiltAt.change {v : ℕ} {r : Except String Acceptor} (h : BuiltAt lib cfg disks v r)
    (openFile : String → Except String File) : BuiltAt lib cfg (disks ++ [openFile]) v r := by
  obtain ⟨disk, hv, hb⟩ := h
  have hlt := (List.getElem?_eq_some_iff.mp hv).1
  exact ⟨disk, by rw [List.getElem?_append_left hlt, hv], hb⟩

theorem Truthful.change {a : ℕ × Response} (h : Truthful lib cfg disks a)
    (openFile : String → Except String File) : Truthful lib cfg (disks ++ [openFile]) a := by
  rcases h with ⟨inner, hb, ha⟩ | ⟨e, hb, ha⟩
  · exact Or.inl ⟨inner, hb.change openFile, ha⟩
  · exact Or.inr ⟨e, hb.change openFile, ha⟩

/-- The answer to a reload that failed does not read like one that did not, whatever is in it. -/
theorem failed_not_reloaded (e : String) : ¬ Says (Note.tlsFailed e).answer .tlsReloaded := by
  intro h
  have hbody : Json.Decodes (objectText (Note.tlsFailed e).members) (objectValue Note.tlsReloaded.members) := by
    have hbody := h.body
    rwa [Note.answer, utf8_text] at hbody
  have herror : ∀ s ∈ (Slot.text (utf8 "error")).strings, Plain s := by
    intro s hs
    rw [List.mem_singleton.mp hs]
    exact plain_of_all (by decide)
  obtain ⟨vs, hvs⟩ := first_member (m := (utf8 "status", .text (utf8 "error")))
    (plain_of_all (by decide)) herror hbody
  simp [objectValue, Note.members, reportOf, Slot.value] at hvs

theorem Current.change {conn : Accepted Acceptor} (h : Current lib cfg disks conn)
    (openFile : String → Except String File) : Current lib cfg (disks ++ [openFile]) conn :=
  ⟨h.built.change openFile, h.newest⟩

theorem Current.told {conn : Accepted Acceptor} (h : Current lib cfg disks conn) {a : ℕ × Response}
    (ha : Says a.2 .tlsReloaded → a.1 ≤ conn.version) :
    Current lib cfg disks { conn with told := conn.told ++ [a] } := by
  refine ⟨h.built, fun b hb => ?_⟩
  rcases List.mem_append.mp hb with hb | hb
  · exact h.newest b hb
  · rw [List.mem_singleton.mp hb]
    exact ha

theorem inv_started (h : Started lib cfg s) : Inv lib cfg s := by
  obtain ⟨⟨openFile, hdisks, hstart⟩, hversion, hreloads, hanswers, hconns⟩ := h
  cases hb : buildAcceptor lib openFile cfg with
  | error e => simp [startAcceptor, HotTlsAcceptor.new, hb, bind, Except.bind, Except.toOption] at hstart
  | ok inner =>
    have htls : s.tls = ⟨inner, cfg⟩ := by
      simpa [startAcceptor, HotTlsAcceptor.new, hb, bind, Except.bind, Except.toOption] using hstart.symm
    have hbuilt : BuiltAt lib cfg s.disks s.version (.ok s.tls.inner) :=
      ⟨openFile, by simp [hdisks, hversion], by rw [htls, ← hb]; exact built lib openFile cfg⟩
    exact ⟨by rw [htls], ⟨hbuilt, by simp [hanswers]⟩, by simp [hreloads], by simp [hanswers],
      by simp [hconns]⟩

theorem inv_step {e : Event File} (hs : step lib s e = some s') (ho : InOrder s e) (h : Inv lib cfg s) :
    Inv lib cfg s' := by
  cases e with
  | change openFile =>
    obtain rfl := Option.some.inj hs
    refine ⟨h.paths, h.live.change openFile, fun r hr => ?_, fun a ha => ?_, fun conn hc => ?_⟩
    · exact (h.reloads r hr).change openFile
    · exact (h.answers a ha).change openFile
    · exact (h.conns conn hc).change openFile
  | build =>
    simp only [step] at hs
    split at hs
    · rename_i openFile hlast
      obtain rfl := Option.some.inj hs
      refine ⟨h.paths, h.live, fun r hr => ?_, h.answers, h.conns⟩
      rcases List.mem_append.mp hr with hr | hr
      · exact h.reloads r hr
      · rw [List.mem_singleton.mp hr, h.paths]
        exact ⟨openFile, by rw [← List.getLast?_eq_getElem?, hlast], built lib openFile cfg⟩
    · simp at hs
  | finish i =>
    simp only [step] at hs
    split at hs
    · rename_i v r hi
      obtain rfl := Option.some.inj hs
      have hbuilt : BuiltAt lib cfg s.disks v r := h.reloads _ (List.mem_of_getElem? hi)
      have hrest : ∀ r' ∈ s.reloads.eraseIdx i, BuiltAt lib cfg s.disks r'.1 r'.2 :=
        fun r' hr => h.reloads r' (List.mem_of_mem_eraseIdx hr)
      cases r with
      | ok inner =>
        have hle := ho v inner hi
        refine ⟨h.paths, ⟨hbuilt, fun a ha hsays => ?_⟩, hrest, fun a ha => ?_, h.conns⟩
        · rcases List.mem_append.mp ha with ha | ha
          · exact (h.live.newest a ha hsays).trans hle
          · rw [List.mem_singleton.mp ha]
        · rcases List.mem_append.mp ha with ha | ha
          · exact h.answers a ha
          · rw [List.mem_singleton.mp ha]
            exact Or.inl ⟨inner, hbuilt, rfl⟩
      | error e =>
        refine ⟨h.paths, h.live.told fun hsays => absurd hsays (failed_not_reloaded e), hrest,
          fun a ha => ?_, h.conns⟩
        rcases List.mem_append.mp ha with ha | ha
        · exact h.answers a ha
        · rw [List.mem_singleton.mp ha]
          exact Or.inr ⟨e, hbuilt, rfl⟩
    · simp at hs
  | accept =>
    obtain rfl := Option.some.inj hs
    refine ⟨h.paths, h.live, h.reloads, h.answers, fun conn hc => ?_⟩
    rcases List.mem_append.mp hc with hc | hc
    · exact h.conns conn hc
    · rw [List.mem_singleton.mp hc]
      exact h.live

/-- A reload that nothing comes between does what `handle_admin` does. -/
theorem finish_handleAdmin {Src : Type} (plugins : PluginsConfig) (out : Outside Src File)
    (srcs : PluginSources Src) (tls : HotTlsAcceptor Acceptor) :
    handleAdmin lib plugins out "POST" "/reload/tls" ⟨srcs, some tls⟩ =
      let (tls, note) := store tls (buildAcceptor lib out.openFile tls.cfg)
      (⟨srcs, some tls⟩, note.answer) := by
  simp only [handleAdmin, HotTlsAcceptor.reload]
  cases buildAcceptor lib out.openFile tls.cfg with
  | ok inner => rfl
  | error e => rfl

def sameFiles (text : String) : String → Except String String := fun _ => .ok text

def oldFiles : State String String :=
  ⟨[sameFiles "old"], ⟨"oldold", "cert.pem", "key.pem"⟩, 0, [], [], []⟩

def overlapping : List (Event String) :=
  [.build, .change (sameFiles "new"), .build, .accept, .finish 0, .finish 0, .accept]

end Runs

end LuaProxy.Rotation
