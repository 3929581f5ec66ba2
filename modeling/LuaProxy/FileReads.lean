import LuaProxy.ReloadRace
import LuaProxy.Refinement

/-! Reloads that read the plugin files one after another. The files may change and go away
between any two reads, in the watcher's task as in any number of `POST /reload` handlers, and
requests run what is live. -/
namespace LuaProxy.FileReads
open Context Engine Transition PluginReload ReloadRace

section Machine

/-- What the files hold; one that is not there cannot be read. -/
abbrev Disk (Src : Type) := String → Option Src

/-- A call of `PluginSources::load` under way. -/
structure Loading (Src : Type) where
  /-- How many changes there had been when it began, and at its latest read. -/
  begun : ℕ
  latest : ℕ
  rest : List String
  sources : HashMap Src

/-- Sources that are live, with the changes there had been at both ends of their load. -/
structure Loaded (Src : Type) where
  begun : ℕ
  latest : ℕ
  sources : PluginSources Src

/-- A phase of a request: what it ran, and when the reloads that were answered by then began. -/
structure Phase (Src : Type) where
  live : Loaded Src
  told : List ℕ

structure State (Src : Type) where
  /-- All states of the files there have been; the last one is there. -/
  disks : List (Disk Src)
  live : Loaded Src
  /-- Events of the library that the watcher has not received yet. -/
  queue : List FsEvent
  pending : Bool
  watcher : Option (Loading Src)
  admins : List (Loading Src)
  /-- When the reloads began that `POST /reload` has been answered for. -/
  answers : List ℕ
  phases : List (Phase Src)

inductive Event (Src : Type)
  | change (name : String) (src : Option Src) (kind : EventKind)
  | noise (ev : FsEvent)
  | deliver (i : ℕ)
  | tick
  | watcherRead
  | watcherStore
  | adminLoad
  | adminRead (i : ℕ)
  | adminStore (i : ℕ)
  | phase

variable {Src : Type} (cfg : PluginsConfig)

/-- The loop body of `PluginSources::load`. -/
def readInto (disk : Disk Src) (sources : HashMap Src) (name : String) : HashMap Src :=
  match disk name with
  | some src => sources.insert name src
  | none => sources

def readAll (disk : Disk Src) (names : List String) : HashMap Src := names.foldl (readInto disk) ∅

namespace State
variable (s : State Src)

def version : ℕ := s.disks.length - 1

def files : Disk Src := s.disks.getLast?.getD fun _ => none

def beginLoad : Loading Src := ⟨s.version, s.version, cfg.pipeline, ∅⟩

def readNext (l : Loading Src) : Option (Loading Src) :=
  match l.rest with
  | name :: rest => some ⟨l.begun, s.version, rest, readInto s.files l.sources name⟩
  | [] => none

end State

def Loading.finish (l : Loading Src) : Option (Loaded Src) :=
  match l.rest with
  | [] => some ⟨l.begun, l.latest, ⟨cfg.pipeline, l.sources⟩⟩
  | _ :: _ => none

/-- One step of the file system, the watcher, a handler or a request, if it is possible. -/
def step (s : State Src) : Event Src → Option (State Src)
  | .change name src kind =>
    if name ∈ cfg.pipeline ∧ kind ≠ .other then
      some { s with
        disks := s.disks ++ [Function.update s.files name src]
        queue := s.queue ++ [⟨kind, [pluginPath cfg name]⟩] }
    else none
  | .noise ev => some { s with queue := s.queue ++ [ev] }
  | .deliver i =>
    match s.watcher, s.queue[i]? with
    | none, some ev =>
      some { s with queue := s.queue.eraseIdx i, pending := s.pending || ev.relevant }
    | _, _ => none
  | .tick =>
    match s.watcher with
    | none =>
      if s.pending then some { s with pending := false, watcher := some (s.beginLoad cfg) } else some s
    | some _ => none
  | .watcherRead => (s.watcher.bind s.readNext).map fun l => { s with watcher := some l }
  | .watcherStore =>
    (s.watcher.bind (Loading.finish cfg)).map fun live => { s with live, watcher := none }
  | .adminLoad => some { s with admins := s.admins ++ [s.beginLoad cfg] }
  | .adminRead i => (s.admins[i]?.bind s.readNext).map fun l => { s with admins := s.admins.set i l }
  | .adminStore i =>
    (s.admins[i]?.bind (Loading.finish cfg)).map fun live =>
      { s with live, admins := s.admins.eraseIdx i, answers := s.answers ++ [live.begun] }
  | .phase => some { s with phases := s.phases ++ [⟨s.live, s.answers⟩] }

/-- The proxy has started: the sources are loaded, nothing is under way. -/
structure Started (s : State Src) : Prop where
  disk : ∃ disk, s.disks = [disk] ∧ s.live = ⟨0, 0, PluginSources.load cfg disk⟩
  alone : s.queue = [] ∧ s.pending = false ∧ s.watcher = none ∧ s.admins = []
  unused : s.answers = [] ∧ s.phases = []

/-- All events are delivered, a tick has run since, and no reload is under way. -/
def Quiet (s : State Src) : Prop :=
  s.queue = [] ∧ s.pending = false ∧ s.watcher = none ∧ s.admins = []

/-- A handler does not store over sources whose load began later. The watcher may. -/
def InOrder (s : State Src) : Event Src → Prop
  | .adminStore i => ∀ l, s.admins[i]? = some l → s.live.begun ≤ l.begun
  | _ => True

/-- The watcher does not either. -/
def AllInOrder (s : State Src) (e : Event Src) : Prop :=
  InOrder s e ∧ (e = .watcherStore → ∀ l, s.watcher = some l → s.live.begun ≤ l.begun)

end Machine

section Gathering
variable {Src : Type} {disks : List (Disk Src)} {names : List String} {a b : ℕ} {sources : HashMap Src}

def HeldAt (disks : List (Disk Src)) (a b : ℕ) (name : String) (held : Option Src) : Prop :=
  ∃ i disk, a ≤ i ∧ i ≤ b ∧ disks[i]? = some disk ∧ disk name = held

/-- What has come of reading some files, one after another, in a time: of each file what it held
at some moment of it, and if no change fell into it, what one disk held. -/
structure Gathered (disks : List (Disk Src)) (names : List String) (a b : ℕ) (sources : HashMap Src) :
    Prop where
  ordered : a ≤ b
  taken : b < disks.length
  held : ∀ name ∈ names, HeldAt disks a b name (sources.lookup name)
  others : ∀ name, name ∉ names → sources.lookup name = none
  whole : a = b → ∀ disk, disks[a]? = some disk → sources = readAll disk names

theorem readInto_lookup (disk : Disk Src) (sources : HashMap Src) (name name' : String) :
    (readInto disk sources name).lookup name' =
      if name' = name then (disk name).or (sources.lookup name) else sources.lookup name' := by
  unfold readInto
  by_cases h : name' = name
  · subst h
    cases disk name' <;> simp
  · cases disk name <;> simp [h]

theorem HeldAt.mono {b' : ℕ} {name : String} {held : Option Src} (h : HeldAt disks a b name held)
    (hb : b ≤ b') : HeldAt disks a b' name held := by
  obtain ⟨i, disk, ha, hi, hdisk, hname⟩ := h
  exact ⟨i, disk, ha, hi.trans hb, hdisk, hname⟩

theorem Gathered.none_yet (h : a < disks.length) : Gathered disks [] a a ∅ where
  ordered := le_rfl
  taken := h
  held _ hname := absurd hname List.not_mem_nil
  others _ _ := rfl
  whole _ _ _ := rfl

theorem Gathered.change (h : Gathered disks names a b sources) (disk : Disk Src) :
    Gathered (disks ++ [disk]) names a b sources where
  ordered := h.ordered
  taken := by
    have hb := h.taken
    rw [List.length_append]
    omega
  held name hname := by
    obtain ⟨i, disk', ha, hi, hdisk, hheld⟩ := h.held name hname
    have hlt := (List.getElem?_eq_some_iff.mp hdisk).1
    exact ⟨i, disk', ha, hi, by rw [List.getElem?_append_left hlt, hdisk], hheld⟩
  others := h.others
  whole hab disk' hdisk := by
    rw [List.getElem?_append_left (by have hb := h.taken; omega)] at hdisk
    exact h.whole hab disk' hdisk

theorem Gathered.read (h : Gathered disks names a b sources) {i : ℕ} {disk : Disk Src} (hi : b ≤ i)
    (hdisk : disks[i]? = some disk) (name : String) :
    Gathered disks (names ++ [name]) a i (readInto disk sources name) where
  ordered := h.ordered.trans hi
  taken := (List.getElem?_eq_some_iff.mp hdisk).1
  held name' hname := by
    rw [readInto_lookup]
    split_ifs with heq
    · subst heq
      have hnow : HeldAt disks a i name' (disk name') := ⟨i, disk, h.ordered.trans hi, le_rfl, hdisk, rfl⟩
      cases hd : disk name' with
      | some src =>
        rw [hd] at hnow
        exact hnow
      | none =>
        rw [hd] at hnow
        rw [Option.none_or]
        by_cases hmem : name' ∈ names
        · exact (h.held name' hmem).mono hi
        · rw [h.others name' hmem]
          exact hnow
    · rcases List.mem_append.mp hname with hname | hname
      · exact (h.held name' hname).mono hi
      · exact absurd (List.mem_singleton.mp hname) heq
  others name' hname := by
    rw [List.mem_append, List.mem_singleton, not_or] at hname
    rw [readInto_lookup, if_neg hname.2, h.others name' hname.1]
  whole hai disk' hdisk' := by
    have hab : a = b := le_antisymm h.ordered (hai ▸ hi)
    subst hai
    obtain rfl := Option.some.inj (hdisk'.symm.trans hdisk)
    rw [readAll, List.foldl_append, ← readAll, ← h.whole hab disk' hdisk']
    rfl

theorem Gathered.reads (h : Gathered disks names a b sources) {disk : Disk Src} (hb : disks[b]? = some disk)
    (rest : List String) : Gathered disks (names ++ rest) a b (rest.foldl (readInto disk) sources) := by
  induction rest generalizing names sources with
  | nil => rwa [List.append_nil]
  | cons name rest ih =>
    have hrest := ih (h.read le_rfl hb name)
    rwa [List.append_assoc] at hrest

end Gathering

section Runs
variable {Src : Type} (cfg : PluginsConfig)

def Underway (disks : List (Disk Src)) (l : Loading Src) : Prop :=
  ∃ names, names ++ l.rest = cfg.pipeline ∧ Gathered disks names l.begun l.latest l.sources

/-- Sources that a load of the whole pipeline has gathered. -/
structure Coherent (disks : List (Disk Src)) (live : Loaded Src) : Prop where
  pipeline : live.sources.pipeline = cfg.pipeline
  gathered : Gathered disks cfg.pipeline live.begun live.latest live.sources.sources

/-- The watcher has not heard yet of something it will react to. -/
def Announced (s : State Src) : Prop := ∃ ev ∈ s.queue, ev.relevant = true

/-- Every load has gathered what it says: those under way, the live one, and those that phases ran. -/
structure Inv (s : State Src) : Prop where
  live : Coherent cfg s.disks s.live
  watcher : ∀ l, s.watcher = some l → Underway cfg s.disks l
  admins : ∀ l ∈ s.admins, Underway cfg s.disks l
  phases : ∀ p ∈ s.phases, Coherent cfg s.disks p.live

/-- A load of the watcher, and the live sources, are of the files as they are, or the watcher
will still come to load them. -/
structure Due (s : State Src) : Prop where
  heard : ∀ l, s.watcher = some l → l.begun = s.version ∨ Announced s
  coming : s.live.begun = s.version ∨ Announced s ∨ s.pending = true ∨ s.watcher.isSome = true

variable {cfg} {s s' : State Src}

theorem Coherent.change {disks : List (Disk Src)} {live : Loaded Src} (h : Coherent cfg disks live)
    (disk : Disk Src) : Coherent cfg (disks ++ [disk]) live :=
  ⟨h.pipeline, h.gathered.change disk⟩

theorem Underway.change {disks : List (Disk Src)} {l : Loading Src} (h : Underway cfg disks l)
    (disk : Disk Src) : Underway cfg (disks ++ [disk]) l := by
  obtain ⟨names, hnames, hgathered⟩ := h
  exact ⟨names, hnames, hgathered.change disk⟩

theorem Inv.version_lt (h : Inv cfg s) : s.version < s.disks.length := by
  have htaken := h.live.gathered.taken
  unfold State.version
  omega

theorem Inv.now (h : Inv cfg s) : s.disks[s.version]? = some s.files := by
  have hlt := h.version_lt
  rw [State.files, State.version, ← List.getLast?_eq_getElem?]
  cases hlast : s.disks.getLast? with
  | none =>
    rw [List.getLast?_eq_none_iff.mp hlast] at hlt
    exact absurd hlt (by simp)
  | some disk => rfl

theorem Inv.begin (h : Inv cfg s) : Underway cfg s.disks (s.beginLoad cfg) :=
  ⟨[], rfl, .none_yet h.version_lt⟩

theorem next_begun {l l' : Loading Src} (hread : s.readNext l = some l') : l'.begun = l.begun := by
  unfold State.readNext at hread
  split at hread
  · obtain rfl := Option.some.inj hread
    rfl
  · simp at hread

theorem finish_begun {l : Loading Src} {live : Loaded Src} (hfinish : l.finish cfg = some live) :
    live.begun = l.begun := by
  unfold Loading.finish at hfinish
  split at hfinish
  · obtain rfl := Option.some.inj hfinish
    rfl
  · simp at hfinish

theorem Inv.next (h : Inv cfg s) {l l' : Loading Src} (hl : Underway cfg s.disks l)
    (hread : s.readNext l = some l') : Underway cfg s.disks l' := by
  obtain ⟨names, hnames, hgathered⟩ := hl
  unfold State.readNext at hread
  split at hread
  · rename_i name rest hrest
    obtain rfl := Option.some.inj hread
    refine ⟨names ++ [name], ?_, hgathered.read ?_ h.now name⟩
    · rw [List.append_assoc, ← hnames, hrest]
      rfl
    · have htaken := hgathered.taken
      unfold State.version
      omega
  · simp at hread

theorem Underway.finish {disks : List (Disk Src)} {l : Loading Src} {live : Loaded Src}
    (h : Underway cfg disks l) (hfinish : l.finish cfg = some live) : Coherent cfg disks live := by
  obtain ⟨names, hnames, hgathered⟩ := h
  unfold Loading.finish at hfinish
  split at hfinish
  · rename_i hrest
    obtain rfl := Option.some.inj hfinish
    rw [hrest, List.append_nil] at hnames
    subst hnames
    exact ⟨rfl, hgathered⟩
  · simp at hfinish

theorem inv_started (h : Started cfg s) : Inv cfg s := by
  obtain ⟨⟨disk, hdisks, hlive⟩, ⟨-, -, hwatcher, hadmins⟩, -, hphases⟩ := h
  have hdisk : s.disks[0]? = some disk := by rw [hdisks]; rfl
  have hnone : Gathered s.disks [] 0 0 ∅ := .none_yet (by simp [hdisks])
  have hgathered := hnone.reads hdisk cfg.pipeline
  rw [List.nil_append] at hgathered
  refine ⟨?_, by simp [hwatcher], by simp [hadmins], by simp [hphases]⟩
  rw [hlive]
  exact ⟨rfl, hgathered⟩

theorem inv_step {e : Event Src} (hs : step cfg s e = some s') (h : Inv cfg s) : Inv cfg s' := by
  cases e with
  | change name src kind =>
    simp only [step] at hs
    split_ifs at hs with hc
    obtain rfl := Option.some.inj hs
    exact ⟨h.live.change _, fun l hl => (h.watcher l hl).change _,
      fun l hl => (h.admins l hl).change _, fun p hp => (h.phases p hp).change _⟩
  | noise ev =>
    obtain rfl := Option.some.inj hs
    exact ⟨h.live, h.watcher, h.admins, h.phases⟩
  | deliver i =>
    simp only [step] at hs
    split at hs
    · obtain rfl := Option.some.inj hs
      exact ⟨h.live, h.watcher, h.admins, h.phases⟩
    · simp at hs
  | tick =>
    simp only [step] at hs
    split at hs
    · split_ifs at hs
      · obtain rfl := Option.some.inj hs
        refine ⟨h.live, fun l hl => ?_, h.admins, h.phases⟩
        obtain rfl := Option.some.inj hl
        exact h.begin
      · obtain rfl := Option.some.inj hs
        exact h
    · simp at hs
  | watcherRead =>
    obtain ⟨l', hread, rfl⟩ := Option.map_eq_some_iff.mp hs
    obtain ⟨l, hl, hread⟩ := Option.bind_eq_some_iff.mp hread
    refine ⟨h.live, fun l₁ hl₁ => ?_, h.admins, h.phases⟩
    obtain rfl := Option.some.inj hl₁
    exact h.next (h.watcher l hl) hread
  | watcherStore =>
    obtain ⟨live, hfinish, rfl⟩ := Option.map_eq_some_iff.mp hs
    obtain ⟨l, hl, hfinish⟩ := Option.bind_eq_some_iff.mp hfinish
    exact ⟨(h.watcher l hl).finish hfinish, fun l' hl' => absurd hl' (by simp), h.admins, h.phases⟩
  | adminLoad =>
    obtain rfl := Option.some.inj hs
    refine ⟨h.live, h.watcher, fun l hl => ?_, h.phases⟩
    rcases List.mem_append.mp hl with hl | hl
    · exact h.admins l hl
    · rw [List.mem_singleton.mp hl]
      exact h.begin
  | adminRead i =>
    obtain ⟨l', hread, rfl⟩ := Option.map_eq_some_iff.mp hs
    obtain ⟨l, hl, hread⟩ := Option.bind_eq_some_iff.mp hread
    refine ⟨h.live, h.watcher, fun l₁ hl₁ => ?_, h.phases⟩
    rcases List.mem_or_eq_of_mem_set hl₁ with hl₁ | rfl
    · exact h.admins l₁ hl₁
    · exact h.next (h.admins l (List.mem_of_getElem? hl)) hread
  | adminStore i =>
    obtain ⟨live, hfinish, rfl⟩ := Option.map_eq_some_iff.mp hs
    obtain ⟨l, hl, hfinish⟩ := Option.bind_eq_some_iff.mp hfinish
    exact ⟨(h.admins l (List.mem_of_getElem? hl)).finish hfinish, h.watcher,
      fun l' hl' => h.admins l' (List.mem_of_mem_eraseIdx hl'), h.phases⟩
  | phase =>
    obtain rfl := Option.some.inj hs
    refine ⟨h.live, h.watcher, h.admins, fun p hp => ?_⟩
    rcases List.mem_append.mp hp with hp | hp
    · exact h.phases p hp
    · rw [List.mem_singleton.mp hp]
      exact h.live

end Runs

section Convergence
variable {Src : Type} {cfg : PluginsConfig} {s s' : State Src}

theorem due_started (h : Started cfg s) : Due s := by
  obtain ⟨⟨disk, hdisks, hlive⟩, ⟨-, -, hwatcher, -⟩, -⟩ := h
  refine ⟨by simp [hwatcher], Or.inl ?_⟩
  rw [hlive, State.version, hdisks]
  rfl

theorem announced_append {q : List FsEvent} (h : ∃ ev ∈ q, ev.relevant = true) (ev : FsEvent) :
    ∃ ev' ∈ q ++ [ev], ev'.relevant = true := by
  obtain ⟨ev', hev, hr⟩ := h
  exact ⟨ev', List.mem_append_left _ hev, hr⟩

theorem due_deliver {i : ℕ} {ev : FsEvent} (hw : s.watcher = none) (hi : s.queue[i]? = some ev)
    (h : Due s) : Due { s with queue := s.queue.eraseIdx i, pending := s.pending || ev.relevant } := by
  refine ⟨fun l hl => absurd (hw.symm.trans hl) (by simp), ?_⟩
  rcases h.coming with hv | ⟨ev', hev, hr⟩ | hp | hsome
  · exact Or.inl hv
  · rcases mem_or_eq_of_eraseIdx hi hev with hev | rfl
    · exact Or.inr (Or.inl ⟨ev', hev, hr⟩)
    · exact Or.inr (Or.inr (Or.inl (by simp [hr])))
  · exact Or.inr (Or.inr (Or.inl (by simp [hp])))
  · exact Or.inr (Or.inr (Or.inr hsome))

theorem Inv.begun_le (h : Inv cfg s) {i : ℕ} {l : Loading Src} (hl : s.admins[i]? = some l) :
    l.begun ≤ s.version := by
  obtain ⟨names, -, hgathered⟩ := h.admins l (List.mem_of_getElem? hl)
  have hle := hgathered.ordered
  have hlt := hgathered.taken
  unfold State.version
  omega

theorem due_step (hlua : LuaFiles cfg) {e : Event Src} (hs : step cfg s e = some s')
    (ho : InOrder s e) (hi : Inv cfg s) (h : Due s) : Due s' := by
  cases e with
  | change name src kind =>
    simp only [step] at hs
    split_ifs at hs with hc
    obtain rfl := Option.some.inj hs
    have hnew : ∃ ev ∈ s.queue ++ [⟨kind, [pluginPath cfg name]⟩], ev.relevant = true :=
      ⟨⟨kind, [pluginPath cfg name]⟩, by simp, by simp [FsEvent.relevant, hc.2, hlua name hc.1]⟩
    exact ⟨fun _ _ => Or.inr hnew, Or.inr (Or.inl hnew)⟩
  | noise ev =>
    obtain rfl := Option.some.inj hs
    refine ⟨fun l hl => ?_, ?_⟩
    · exact (h.heard l hl).imp_right fun hev => announced_append hev ev
    · exact h.coming.imp_right fun hrest => hrest.imp_left fun hev => announced_append hev ev
  | deliver i =>
    simp only [step] at hs
    split at hs
    · rename_i ev hw hi
      obtain rfl := Option.some.inj hs
      exact due_deliver hw hi h
    · simp at hs
  | tick =>
    simp only [step] at hs
    split at hs
    · split_ifs at hs
      · obtain rfl := Option.some.inj hs
        refine ⟨fun l hl => ?_, Or.inr (Or.inr (Or.inr rfl))⟩
        obtain rfl := Option.some.inj hl
        exact Or.inl rfl
      · obtain rfl := Option.some.inj hs
        exact h
    · simp at hs
  | watcherRead =>
    obtain ⟨l', hread, rfl⟩ := Option.map_eq_some_iff.mp hs
    obtain ⟨l, hl, hread⟩ := Option.bind_eq_some_iff.mp hread
    refine ⟨fun l₁ hl₁ => ?_, Or.inr (Or.inr (Or.inr rfl))⟩
    obtain rfl := Option.some.inj hl₁
    exact (h.heard l hl).imp_left fun hv => (next_begun hread).trans hv
  | watcherStore =>
    -- what changed since the load began is in the queue: the watcher has received nothing meanwhile
    obtain ⟨live, hfinish, rfl⟩ := Option.map_eq_some_iff.mp hs
    obtain ⟨l, hl, hfinish⟩ := Option.bind_eq_some_iff.mp hfinish
    refine ⟨fun l' hl' => absurd hl' (by simp), ?_⟩
    rcases h.heard l hl with hv | hev
    · exact Or.inl ((finish_begun hfinish).trans hv)
    · exact Or.inr (Or.inl hev)
  | adminLoad =>
    obtain rfl := Option.some.inj hs
    exact ⟨h.heard, h.coming⟩
  | adminRead i =>
    obtain ⟨l', -, rfl⟩ := Option.map_eq_some_iff.mp hs
    exact ⟨h.heard, h.coming⟩
  | adminStore i =>
    obtain ⟨live, hfinish, rfl⟩ := Option.map_eq_some_iff.mp hs
    obtain ⟨l, hl, hfinish⟩ := Option.bind_eq_some_iff.mp hfinish
    refine ⟨h.heard, h.coming.imp_left fun hv => ?_⟩
    have hle := ho l hl
    have hle' := hi.begun_le hl
    have hbegun := finish_begun hfinish
    change live.begun = s.version
    omega
  | phase =>
    obtain rfl := Option.some.inj hs
    exact ⟨h.heard, h.coming⟩

theorem kept (hlua : LuaFiles cfg) {es : List (Event Src)}
    (hrun : Run (fun s e s' => step cfg s e = some s' ∧ InOrder s e) s es s') (hi : Inv cfg s)
    (hd : Due s) : Inv cfg s' ∧ Due s' :=
  hrun.invariant (I := fun s => Inv cfg s ∧ Due s)
    (fun _ _ _ h hs => ⟨inv_step h.1 hs.1, due_step hlua h.1 h.2 hs.1 hs.2⟩) ⟨hi, hd⟩

theorem Due.converged (h : Due s) (hi : Inv cfg s) (hquiet : Quiet s) :
    s.live.sources = PluginSources.load cfg s.files := by
  obtain ⟨hqueue, hpending, hwatcher, -⟩ := hquiet
  have hbegun : s.live.begun = s.version := by
    rcases h.coming with hv | ⟨ev, hev, -⟩ | hp | hsome
    · exact hv
    · rw [hqueue] at hev
      exact absurd hev List.not_mem_nil
    · rw [hpending] at hp
      exact absurd hp (by simp)
    · rw [hwatcher] at hsome
      exact absurd hsome (by simp)
  have hgathered := hi.live.gathered
  have hwhole : s.live.begun = s.live.latest := by
    have hle := hgathered.ordered
    have hlt := hgathered.taken
    unfold State.version at hbegun
    omega
  have hsources := hgathered.whole hwhole s.files (by rw [hbegun, hi.now])
  rw [show s.live.sources = ⟨s.live.sources.pipeline, s.live.sources.sources⟩ from rfl,
    hi.live.pipeline, hsources]
  rfl

end Convergence

section Settling
variable {Src : Type} (cfg : PluginsConfig)

def Event.isWatcherStore : Event Src → Bool
  | .watcherStore => true
  | _ => false

/-- Something happens that the watcher reacts to once it hears of it. -/
def Event.stirs : Event Src → Bool
  | .change name _ _ => extension (pluginPath cfg name) == some "lua"
  | .noise ev => ev.relevant
  | _ => false

/-- The steps of the watcher's task. -/
def Event.own : Event Src → Bool
  | .deliver _ | .tick | .watcherRead | .watcherStore => true
  | _ => false

/-- How many loads the watcher may still store because of what has happened. -/
def owed (s : State Src) : ℕ :=
  s.watcher.isSome.toNat + s.pending.toNat + s.queue.countP FsEvent.relevant

variable {cfg} {s s' : State Src}

theorem countP_snoc (q : List FsEvent) (ev : FsEvent) :
    (q ++ [ev]).countP FsEvent.relevant = q.countP FsEvent.relevant + ev.relevant.toNat := by
  rw [List.countP_append, List.countP_singleton]
  cases ev.relevant <;> rfl

theorem countP_eraseIdx {q : List FsEvent} {i : ℕ} {ev : FsEvent} (hi : q[i]? = some ev) :
    (q.eraseIdx i).countP FsEvent.relevant + ev.relevant.toNat = q.countP FsEvent.relevant := by
  obtain ⟨hlt, rfl⟩ := List.getElem?_eq_some_iff.mp hi
  rw [← (List.getElem_cons_eraseIdx_perm hlt).countP_eq, List.countP_cons]
  cases q[i].relevant <;> rfl

theorem owed_step {e : Event Src} (hs : step cfg s e = some s') :
    owed s' + e.isWatcherStore.toNat ≤ owed s + (e.stirs cfg).toNat := by
  cases e with
  | change name src kind =>
    simp only [step] at hs
    split_ifs at hs with hc
    obtain rfl := Option.some.inj hs
    have hrelevant : FsEvent.relevant ⟨kind, [pluginPath cfg name]⟩ =
        (extension (pluginPath cfg name) == some "lua") := by
      simp [FsEvent.relevant, hc.2]
    simp only [owed, Event.isWatcherStore, Event.stirs, countP_snoc, hrelevant]
    exact Nat.le_of_eq (Nat.add_assoc _ _ _).symm
  | noise ev =>
    obtain rfl := Option.some.inj hs
    simp only [owed, Event.isWatcherStore, Event.stirs, countP_snoc]
    exact Nat.le_of_eq (Nat.add_assoc _ _ _).symm
  | deliver i =>
    simp only [step] at hs
    split at hs
    · rename_i ev hw hi
      obtain rfl := Option.some.inj hs
      have hcount := countP_eraseIdx hi
      have hor : (s.pending || ev.relevant).toNat ≤ s.pending.toNat + ev.relevant.toNat := by
        cases s.pending <;> cases ev.relevant <;> decide
      simp only [owed, Event.isWatcherStore, Event.stirs, hw]
      omega
    · simp at hs
  | tick =>
    simp only [step] at hs
    split at hs
    · rename_i hw
      split_ifs at hs with hp
      · obtain rfl := Option.some.inj hs
        simp [owed, Event.isWatcherStore, hw, hp]
      · obtain rfl := Option.some.inj hs
        simp [Event.isWatcherStore]
    · simp at hs
  | watcherRead =>
    obtain ⟨l', hread, rfl⟩ := Option.map_eq_some_iff.mp hs
    obtain ⟨l, hl, -⟩ := Option.bind_eq_some_iff.mp hread
    simp [owed, Event.isWatcherStore, hl]
  | watcherStore =>
    obtain ⟨live, hfinish, rfl⟩ := Option.map_eq_some_iff.mp hs
    obtain ⟨l, hl, -⟩ := Option.bind_eq_some_iff.mp hfinish
    simp [owed, Event.isWatcherStore, hl]
    omega
  | adminLoad =>
    obtain rfl := Option.some.inj hs
    exact Nat.le_add_right _ _
  | adminRead i =>
    obtain ⟨l', -, rfl⟩ := Option.map_eq_some_iff.mp hs
    exact Nat.le_add_right _ _
  | adminStore i =>
    obtain ⟨live, -, rfl⟩ := Option.map_eq_some_iff.mp hs
    exact Nat.le_add_right _ _
  | phase =>
    obtain rfl := Option.some.inj hs
    exact Nat.le_add_right _ _

def State.readRest (s : State Src) (l : Loading Src) : Loading Src :=
  ⟨l.begun, if l.rest = [] then l.latest else s.version, [], l.rest.foldl (readInto s.files) l.sources⟩

theorem State.readRest_done {l : Loading Src} (hrest : l.rest = []) : s.readRest l = l := by
  obtain ⟨begun, latest, rest, sources⟩ := l
  obtain rfl := hrest
  rfl

theorem State.readRest_next {l l' : Loading Src} (hread : s.readNext l = some l') :
    s.readRest l' = s.readRest l := by
  obtain ⟨begun, latest, rest, sources⟩ := l
  cases rest with
  | nil => exact absurd hread (by simp [State.readNext])
  | cons name rest =>
    obtain rfl := Option.some.inj hread
    simp [State.readRest]

theorem watcher_reads (l : Loading Src) (hl : s.watcher = some l) :
    execute (step cfg) s (List.replicate l.rest.length .watcherRead) =
      some { s with watcher := some (s.readRest l) } := by
  induction hrest : l.rest generalizing s l with
  | nil =>
    rw [State.readRest_done hrest, ← hl]
    rfl
  | cons name rest ih =>
    obtain ⟨l', hread, hrest'⟩ : ∃ l', s.readNext l = some l' ∧ l'.rest = rest := by
      rw [State.readNext, hrest]
      exact ⟨_, rfl, rfl⟩
    have hstep : step cfg s .watcherRead = some { s with watcher := some l' } := by
      simp [step, hl, hread]
    have hreads := @ih { s with watcher := some l' } l' rfl hrest'
    rw [List.length_cons, List.replicate_succ, execute, hstep, ← State.readRest_next hread]
    exact hreads

theorem finishes (l : Loading Src) (hl : s.watcher = some l) :
    ∃ live, execute (step cfg) s (List.replicate l.rest.length .watcherRead ++ [.watcherStore]) =
      some { s with live, watcher := none } := by
  refine ⟨⟨l.begun, (s.readRest l).latest, ⟨cfg.pipeline, (s.readRest l).sources⟩⟩, ?_⟩
  rw [execute_snoc, watcher_reads l hl]
  rfl

theorem delivers (hw : s.watcher = none) :
    ∃ pending, execute (step cfg) s (List.replicate s.queue.length (.deliver 0)) =
      some { s with queue := [], pending } := by
  obtain ⟨disks, live, queue, pending, watcher, admins, answers, phases⟩ := s
  dsimp only at hw
  subst hw
  induction queue generalizing pending with
  | nil => exact ⟨pending, rfl⟩
  | cons ev queue ih =>
    obtain ⟨pending', hrest⟩ := ih (pending || ev.relevant)
    exact ⟨pending', hrest⟩

theorem own_finishes {n : ℕ} {e : Event Src} (he : e ∈ List.replicate n .watcherRead ++ [.watcherStore]) :
    e.own = true := by
  rcases List.mem_append.mp he with he | he
  · rw [List.eq_of_mem_replicate he]
    rfl
  · rw [List.mem_singleton.mp he]
    rfl

theorem settles_idle (hw : s.watcher = none) (hadmins : s.admins = []) :
    ∃ es s', (∀ e ∈ es, e.own = true) ∧ es.length ≤ s.queue.length + cfg.pipeline.length + 2 ∧
      execute (step cfg) s es = some s' ∧ Quiet s' ∧ s'.disks = s.disks := by
  obtain ⟨pending, hdelivered⟩ := @delivers Src cfg s hw
  have hown : ∀ e ∈ List.replicate s.queue.length (Event.deliver 0 : Event Src), e.own = true := by
    intro e he
    rw [List.eq_of_mem_replicate he]
    rfl
  cases pending with
  | false =>
    refine ⟨_, _, hown, ?_, hdelivered, ⟨rfl, rfl, hw, hadmins⟩, rfl⟩
    rw [List.length_replicate]
    omega
  | true =>
    have hload : step cfg { s with queue := [], pending := true } .tick =
        some { s with queue := [], pending := false, watcher := some (s.beginLoad cfg) } := by
      simp only [step, hw]
      rfl
    obtain ⟨live, hfinished⟩ := @finishes Src cfg
      { s with queue := [], pending := false, watcher := some (s.beginLoad cfg) } _ rfl
    refine ⟨List.replicate s.queue.length (.deliver 0) ++ (.tick ::
      (List.replicate cfg.pipeline.length .watcherRead ++ [.watcherStore])),
      { s with live, queue := [], pending := false, watcher := none }, ?_, ?_, ?_,
      ⟨rfl, rfl, rfl, hadmins⟩, rfl⟩
    · intro e he
      rcases List.mem_append.mp he with he | he
      · exact hown e he
      · rcases List.mem_cons.mp he with rfl | he
        · rfl
        · exact own_finishes he
    · simp only [List.length_append, List.length_replicate, List.length_cons, List.length_nil]
      omega
    · rw [execute_append, hdelivered, Option.bind_some, execute, hload, Option.bind_some]
      exact hfinished

theorem settles (h : Inv cfg s) (hadmins : s.admins = []) :
    ∃ es s', (∀ e ∈ es, e.own = true) ∧ es.length ≤ s.queue.length + 2 * cfg.pipeline.length + 3 ∧
      execute (step cfg) s es = some s' ∧ Quiet s' ∧ s'.disks = s.disks := by
  cases hw : s.watcher with
  | none =>
    obtain ⟨es, s', hown, hlength, hrun, hquiet, hdisks⟩ := @settles_idle Src cfg s hw hadmins
    exact ⟨es, s', hown, by omega, hrun, hquiet, hdisks⟩
  | some l =>
    obtain ⟨live, hfinished⟩ := @finishes Src cfg s l hw
    obtain ⟨es, s', hown, hlength, hrun, hquiet, hdisks⟩ :=
      @settles_idle Src cfg { s with live, watcher := none } rfl hadmins
    have hrest : l.rest.length ≤ cfg.pipeline.length := by
      obtain ⟨names, hnames, -⟩ := h.watcher l hw
      rw [← hnames, List.length_append]
      omega
    refine ⟨(List.replicate l.rest.length .watcherRead ++ [.watcherStore]) ++ es, s', fun e he => ?_,
      ?_, ?_, hquiet, hdisks⟩
    · rcases List.mem_append.mp he with he | he
      · exact own_finishes he
      · exact hown e he
    · simp only [List.length_append, List.length_replicate, List.length_cons, List.length_nil]
      dsimp only at hlength
      omega
    · rw [execute_append, hfinished]
      exact hrun

/-- What hot reloading promises, of a run that came to some state. -/
structure HotReload (cfg : PluginsConfig) (es : List (Event Src)) (s : State Src) : Prop where
  coherent : ∀ p ∈ s.phases, Coherent cfg s.disks p.live
  converged : Quiet s → s.live.sources = PluginSources.load cfg s.files
  debounced : es.countP Event.isWatcherStore ≤ es.countP (Event.stirs cfg)
  settles : s.admins = [] → ∃ es' s', (∀ e ∈ es', e.own = true) ∧
    es'.length ≤ s.queue.length + 2 * cfg.pipeline.length + 3 ∧
      execute (step cfg) s es' = some s' ∧ Quiet s' ∧
        s'.live.sources = PluginSources.load cfg s.files

theorem inOrder_own {e : Event Src} (h : e.own = true) (s : State Src) : InOrder s e := by
  cases e with
  | adminStore i => exact absurd h (by simp [Event.own])
  | _ => trivial

/-- Loads that read one file after another, from files that change and go away meanwhile, reload
the plugins as one wants, if no handler stores over sources whose load began later than its own. -/
theorem hot_reload (hlua : LuaFiles cfg) {s₀ s : State Src} {es : List (Event Src)} (h₀ : Started cfg s₀)
    (hrun : Run (fun s e s' => step cfg s e = some s' ∧ InOrder s e) s₀ es s) :
    HotReload cfg es s := by
  obtain ⟨hinv, hdue⟩ := kept hlua hrun (inv_started h₀) (due_started h₀)
  have howed : owed s + es.countP Event.isWatcherStore ≤ owed s₀ + es.countP (Event.stirs cfg) :=
    hrun.countP_le fun _ _ _ h => owed_step h.1
  have hnone : owed s₀ = 0 := by
    obtain ⟨-, ⟨hqueue, hpending, hwatcher, -⟩, -⟩ := h₀
    simp [owed, hqueue, hpending, hwatcher]
  refine ⟨hinv.phases, hdue.converged hinv, by omega, fun hadmins => ?_⟩
  obtain ⟨es', s', hown, hlength, hexec, hquiet, hdisks⟩ := settles hinv hadmins
  have hrun' := Refinement.run_guarded (G := InOrder) (Run.of_execute hexec)
    fun e he s => inOrder_own (hown e he) s
  obtain ⟨hinv', hdue'⟩ := kept hlua hrun' hinv hdue
  have hfiles : s'.files = s.files := by rw [State.files, hdisks, State.files]
  exact ⟨es', s', hown, hlength, hexec, hquiet, hfiles ▸ hdue'.converged hinv' hquiet⟩

def oldState : State String where
  disks := [fun _ => some "old"]
  live := ⟨0, 0, PluginSources.load twoPlugins fun _ => some "old"⟩
  queue := []
  pending := false
  watcher := none
  admins := []
  answers := []
  phases := []

/-- `auth.lua` and `authz.lua` change while the watcher loads; the second of them is read after its
change, the first before. -/
def tornEvents : List (Event String) :=
  [.change "auth.lua" (some "a1") .modify, .deliver 0, .tick, .watcherRead, .change "auth.lua" none .remove,
    .change "authz.lua" (some "z1") .modify, .watcherRead, .watcherStore, .phase]

theorem torn_reloads : ∃ s, execute (step twoPlugins) oldState tornEvents = some s ∧
    s.live.sources.sources.lookup "auth.lua" = some "a1" ∧
      s.live.sources.sources.lookup "authz.lua" = some "z1" ∧ HotReload twoPlugins tornEvents s := by
  have hlua : LuaFiles twoPlugins := by
    unfold LuaFiles
    decide
  have hstarted : Started twoPlugins oldState := ⟨⟨_, rfl, rfl⟩, ⟨rfl, rfl, rfl, rfl⟩, rfl, rfl⟩
  refine ⟨_, rfl, by decide, by decide, ?_⟩
  refine hot_reload hlua hstarted (show Run _ _ tornEvents _ from ?_)
  exact .cons ⟨rfl, trivial⟩ (.cons ⟨rfl, trivial⟩ (.cons ⟨rfl, trivial⟩ (.cons ⟨rfl, trivial⟩
    (.cons ⟨rfl, trivial⟩ (.cons ⟨rfl, trivial⟩ (.cons ⟨rfl, trivial⟩ (.cons ⟨rfl, trivial⟩
      (.cons ⟨rfl, trivial⟩ (.nil _)))))))))

end Settling

section Freshness
variable {Src : Type} {cfg : PluginsConfig} {s s' : State Src}

/-- What phases run is no older than what the reloads read that were answered by then. -/
structure Fresh (s : State Src) : Prop where
  live : ∀ t ∈ s.answers, t ≤ s.live.begun
  phases : ∀ p ∈ s.phases, ∀ t ∈ p.told, t ≤ p.live.begun

theorem fresh_step {e : Event Src} (hs : step cfg s e = some s') (ho : AllInOrder s e) (h : Fresh s) :
    Fresh s' := by
  cases e with
  | watcherStore =>
    obtain ⟨live, hfinish, rfl⟩ := Option.map_eq_some_iff.mp hs
    obtain ⟨l, hl, hfinish⟩ := Option.bind_eq_some_iff.mp hfinish
    refine ⟨fun t ht => (h.live t ht).trans ?_, h.phases⟩
    exact (ho.2 rfl l hl).trans_eq (finish_begun hfinish).symm
  | adminStore i =>
    obtain ⟨live, hfinish, rfl⟩ := Option.map_eq_some_iff.mp hs
    obtain ⟨l, hl, hfinish⟩ := Option.bind_eq_some_iff.mp hfinish
    refine ⟨fun t ht => ?_, h.phases⟩
    rcases List.mem_append.mp ht with ht | ht
    · exact ((h.live t ht).trans (ho.1 l hl)).trans_eq (finish_begun hfinish).symm
    · exact (List.mem_singleton.mp ht).le
  | phase =>
    obtain rfl := Option.some.inj hs
    refine ⟨h.live, fun p hp => ?_⟩
    rcases List.mem_append.mp hp with hp | hp
    · exact h.phases p hp
    · rw [List.mem_singleton.mp hp]
      exact h.live
  | watcherRead =>
    obtain ⟨l, -, rfl⟩ := Option.map_eq_some_iff.mp hs
    exact ⟨h.live, h.phases⟩
  | adminRead i =>
    obtain ⟨l, -, rfl⟩ := Option.map_eq_some_iff.mp hs
    exact ⟨h.live, h.phases⟩
  | _ =>
    simp only [step] at hs
    grind [Fresh]

/-- Every phase of a request runs plugins that were in their files during one load, and no load
that began before a reload which had been answered: a client that reloads sees its reload. -/
theorem phases_fresh {s₀ s : State Src} {es : List (Event Src)} (h₀ : Started cfg s₀)
    (hrun : Run (fun s e s' => step cfg s e = some s' ∧ AllInOrder s e) s₀ es s) :
    ∀ p ∈ s.phases, Coherent cfg s.disks p.live ∧ ∀ t ∈ p.told, t ≤ p.live.begun := by
  have hinv : Inv cfg s := hrun.invariant (fun _ _ _ h => inv_step h.1) (inv_started h₀)
  have hnone : Fresh s₀ := ⟨by simp [h₀.unused.1], by simp [h₀.unused.2]⟩
  have hfresh : Fresh s := hrun.invariant (fun _ _ _ h => fresh_step h.1 h.2) hnone
  exact fun p hp => ⟨hinv.phases p hp, hfresh.phases p hp⟩

/-- A handler reloads after a change, and a request comes after its answer. -/
def toldEvents : List (Event String) :=
  [.change "auth.lua" (some "a1") .modify, .adminLoad, .adminRead 0, .adminRead 0, .adminStore 0, .phase]

theorem told_fresh : ∃ s, execute (step twoPlugins) oldState toldEvents = some s ∧
    s.phases.map Phase.told = [[1]] ∧
      ∀ p ∈ s.phases, Coherent twoPlugins s.disks p.live ∧ ∀ t ∈ p.told, t ≤ p.live.begun := by
  have hstarted : Started twoPlugins oldState := ⟨⟨_, rfl, rfl⟩, ⟨rfl, rfl, rfl, rfl⟩, rfl, rfl⟩
  have horder : ∀ {s : State String} {e : Event String}, e ≠ .watcherStore → InOrder s e →
      AllInOrder s e := fun hne ho => ⟨ho, fun he => absurd he hne⟩
  refine ⟨_, rfl, rfl, phases_fresh hstarted (show Run _ _ toldEvents _ from ?_)⟩
  refine .cons ⟨rfl, horder (by simp) trivial⟩ (.cons ⟨rfl, horder (by simp) trivial⟩
    (.cons ⟨rfl, horder (by simp) trivial⟩ (.cons ⟨rfl, horder (by simp) trivial⟩
      (.cons ⟨rfl, horder (by simp) ?_⟩ (.cons ⟨rfl, horder (by simp) trivial⟩ (.nil _))))))
  intro l hl
  exact Nat.zero_le l.begun

end Freshness

section Atomic
variable {Src : Type} (cfg : PluginsConfig)

/-- A load at one moment, with all its reads done. -/
def readWhole (snap : Snapshot Src) : Loading Src :=
  ⟨snap.version, snap.version, [], snap.sources.sources⟩

/-- The files and the sources are those of the machine whose loads take one step. -/
structure Stands (r : ReloadRace.State Src) (s : State Src) : Prop where
  version : s.version = r.version
  now : s.disks[s.version]? = some s.files
  files : s.files = fun name => some (r.files name)
  live : s.live = ⟨r.live.version, r.live.version, r.live.sources⟩
  queue : s.queue = r.queue
  pending : s.pending = r.pending
  watcher : s.watcher = r.watcher.map readWhole
  admins : s.admins = r.admins.map readWhole
  pipelines : ∀ snap, r.watcher = some snap ∨ snap ∈ r.admins → snap.sources.pipeline = cfg.pipeline

/-- What a step of the machine with atomic loads stands for: a load's reads follow one another. -/
def emit (r : ReloadRace.State Src) : ReloadRace.Event Src → List (Event Src)
  | .change name src kind => [.change name (some src) kind]
  | .noise ev => [.noise ev]
  | .deliver i => [.deliver i]
  | .tick =>
    .tick :: if r.watcher.isNone && r.pending then List.replicate cfg.pipeline.length .watcherRead else []
  | .watcherStore => [.watcherStore]
  | .adminLoad => .adminLoad :: List.replicate cfg.pipeline.length (.adminRead r.admins.length)
  | .adminStore i => [.adminStore i]

variable {cfg} {r : ReloadRace.State Src} {s : State Src}

theorem admin_reads {i : ℕ} (l : Loading Src) (hl : s.admins[i]? = some l) :
    execute (step cfg) s (List.replicate l.rest.length (.adminRead i)) =
      some { s with admins := s.admins.set i (s.readRest l) } := by
  induction hrest : l.rest generalizing s l with
  | nil =>
    obtain ⟨hi, hget⟩ := List.getElem?_eq_some_iff.mp hl
    rw [State.readRest_done hrest, ← hget, List.set_getElem_self]
    rfl
  | cons name rest ih =>
    obtain ⟨l', hread, hrest'⟩ : ∃ l', s.readNext l = some l' ∧ l'.rest = rest := by
      rw [State.readNext, hrest]
      exact ⟨_, rfl, rfl⟩
    have hstep : step cfg s (.adminRead i) = some { s with admins := s.admins.set i l' } := by
      simp [step, hl, hread]
    obtain ⟨hi, -⟩ := List.getElem?_eq_some_iff.mp hl
    have hreads := @ih { s with admins := s.admins.set i l' } l' (List.getElem?_set_self hi) hrest'
    rw [List.set_set] at hreads
    rw [List.length_cons, List.replicate_succ, execute, hstep, ← State.readRest_next hread]
    exact hreads

theorem Stands.load (h : Stands cfg r s) : s.readRest (s.beginLoad cfg) = readWhole (r.load cfg) := by
  have hload : r.load cfg = ⟨r.version, PluginSources.load cfg s.files⟩ := by
    rw [h.files]
    rfl
  rw [hload, readWhole, ← h.version, State.readRest]
  split_ifs <;> rfl

def State.changed (s : State Src) (disk : Disk Src) (queue : List FsEvent) : State Src :=
  { s with disks := s.disks ++ [disk], queue }

theorem Stands.change (h : Stands cfg r s) (name : String) (src : Src) (q : List FsEvent) :
    Stands cfg
      { r with files := Function.update r.files name src, version := r.version + 1, queue := q }
      (s.changed (Function.update s.files name (some src)) q) := by
  have hlength : s.disks.length = s.version + 1 := by
    have hlt := (List.getElem?_eq_some_iff.mp h.now).1
    unfold State.version at hlt ⊢
    omega
  have hfiles : (s.changed (Function.update s.files name (some src)) q).files =
      Function.update s.files name (some src) := by
    simp [State.files, State.changed]
  have hversion : (s.changed (Function.update s.files name (some src)) q).version = s.version + 1 := by
    simp only [State.version, State.changed, List.length_append, List.length_singleton]
    exact hlength
  refine ⟨by rw [hversion, h.version], ?_, ?_, h.live, rfl, h.pending, h.watcher, h.admins, h.pipelines⟩
  · rw [hversion, hfiles, ← hlength]
    simp [State.changed]
  · rw [hfiles, h.files]
    funext name'
    by_cases hname : name' = name
    · subst hname
      simp
    · simp [Function.update_of_ne hname]

/-- What an event stands for leads to where the event does. -/
def Emulated (cfg : PluginsConfig) (r : ReloadRace.State Src) (s : State Src)
    (e : ReloadRace.Event Src) (r' : ReloadRace.State Src) : Prop :=
  ∃ s', execute (step cfg) s (emit cfg r e) = some s' ∧ Stands cfg r' s'

section Events
variable (h : Stands cfg r s) {r' : ReloadRace.State Src}
include h

theorem emulated_change {name : String} {src : Src} {kind : EventKind}
    (hs : ReloadRace.step cfg r (.change name src kind) = some r') :
    Emulated cfg r s (.change name src kind) r' := by
  simp only [ReloadRace.step] at hs
  split_ifs at hs with hc
  obtain rfl := Option.some.inj hs
  refine ⟨_, ?_, h.change name src _⟩
  simp only [emit, execute, step, if_pos hc, h.queue, Option.bind_some, State.changed]

theorem emulated_noise {ev : FsEvent} (hs : ReloadRace.step cfg r (.noise ev) = some r') :
    Emulated cfg r s (.noise ev) r' := by
  obtain rfl := Option.some.inj hs
  refine ⟨{ s with queue := s.queue ++ [ev] }, rfl, ?_⟩
  exact ⟨h.version, h.now, h.files, h.live, by rw [h.queue], h.pending, h.watcher, h.admins,
    h.pipelines⟩

theorem emulated_deliver {i : ℕ} (hs : ReloadRace.step cfg r (.deliver i) = some r') :
    Emulated cfg r s (.deliver i) r' := by
  simp only [ReloadRace.step] at hs
  split at hs
  · rename_i ev hw hi
    obtain rfl := Option.some.inj hs
    have hwatcher : s.watcher = none := by rw [h.watcher, hw, Option.map_none]
    have hqueue : s.queue[i]? = some ev := by rw [h.queue, hi]
    refine ⟨{ s with queue := s.queue.eraseIdx i, pending := s.pending || ev.relevant }, ?_, ?_⟩
    · simp [emit, execute, step, hwatcher, hqueue]
    · exact ⟨h.version, h.now, h.files, h.live, by rw [h.queue], by rw [h.pending], h.watcher,
        h.admins, h.pipelines⟩
  · simp at hs

/-- A tick with something pending stands for all the reads of its load, one after the other. -/
theorem emulated_tick (hs : ReloadRace.step cfg r .tick = some r') : Emulated cfg r s .tick r' := by
  simp only [ReloadRace.step] at hs
  split at hs
  · rename_i hw
    have hwatcher : s.watcher = none := by rw [h.watcher, hw, Option.map_none]
    split_ifs at hs with hp
    · obtain rfl := Option.some.inj hs
      have htick : step cfg s .tick =
          some { s with pending := false, watcher := some (s.beginLoad cfg) } := by
        simp [step, hwatcher, h.pending, hp]
      have hreads := @watcher_reads Src cfg
        { s with pending := false, watcher := some (s.beginLoad cfg) } _ rfl
      refine ⟨{ s with
        pending := false
        watcher := some (State.readRest
          { s with pending := false, watcher := some (s.beginLoad cfg) } (s.beginLoad cfg)) }, ?_, ?_⟩
      · simp only [emit, hw, hp, Option.isNone_none, Bool.and_self, if_true, execute, htick,
          Option.bind_some]
        exact hreads
      · refine ⟨h.version, h.now, h.files, h.live, h.queue, rfl, ?_, h.admins, fun snap hsnap => ?_⟩
        · rw [Option.map_some, ← h.load]
          rfl
        · rcases hsnap with hsnap | hsnap
          · obtain rfl := Option.some.inj hsnap
            rfl
          · exact h.pipelines snap (Or.inr hsnap)
    · obtain rfl := Option.some.inj hs
      refine ⟨s, ?_, h⟩
      simp [emit, execute, step, hwatcher, h.pending, hp]
  · simp at hs

theorem emulated_watcherStore (hs : ReloadRace.step cfg r .watcherStore = some r') :
    Emulated cfg r s .watcherStore r' := by
  simp only [ReloadRace.step] at hs
  split at hs
  · rename_i snap hw
    obtain rfl := Option.some.inj hs
    have hwatcher : s.watcher = some (readWhole snap) := by rw [h.watcher, hw, Option.map_some]
    have hpipeline := h.pipelines snap (Or.inl hw)
    refine ⟨{ s with live := ⟨snap.version, snap.version, snap.sources⟩, watcher := none }, ?_, ?_⟩
    · simp [emit, execute, step, hwatcher, Loading.finish, readWhole, ← hpipeline]
    · exact ⟨h.version, h.now, h.files, rfl, h.queue, h.pending, rfl, h.admins, fun snap' hsnap =>
        h.pipelines snap' (Or.inr (hsnap.resolve_left (by simp)))⟩
  · simp at hs

theorem emulated_adminLoad (hs : ReloadRace.step cfg r .adminLoad = some r') :
    Emulated cfg r s .adminLoad r' := by
  obtain rfl := Option.some.inj hs
  have hlength : s.admins.length = r.admins.length := by rw [h.admins, List.length_map]
  have hreads := @admin_reads Src cfg { s with admins := s.admins ++ [s.beginLoad cfg] }
    r.admins.length (s.beginLoad cfg) (by rw [← hlength]; simp)
  refine ⟨_, hreads, ⟨h.version, h.now, h.files, h.live, h.queue, h.pending, h.watcher, ?_,
    fun snap hsnap => ?_⟩⟩
  · rw [List.map_append, List.map_singleton, ← h.load, ← h.admins, ← hlength]
    simp [State.readRest, State.version, State.files]
  · rcases hsnap with hsnap | hsnap
    · exact h.pipelines snap (Or.inl hsnap)
    · rcases List.mem_append.mp hsnap with hsnap | hsnap
      · exact h.pipelines snap (Or.inr hsnap)
      · rw [List.mem_singleton.mp hsnap]
        rfl

theorem emulated_adminStore {i : ℕ} (hs : ReloadRace.step cfg r (.adminStore i) = some r') :
    Emulated cfg r s (.adminStore i) r' := by
  simp only [ReloadRace.step] at hs
  split at hs
  · rename_i snap hi
    obtain rfl := Option.some.inj hs
    have hadmin : s.admins[i]? = some (readWhole snap) := by
      rw [h.admins, List.getElem?_map, hi, Option.map_some]
    have hpipeline := h.pipelines snap (Or.inr (List.mem_of_getElem? hi))
    refine ⟨{ s with
      live := ⟨snap.version, snap.version, snap.sources⟩
      admins := s.admins.eraseIdx i
      answers := s.answers ++ [snap.version] }, ?_, ?_⟩
    · simp [emit, execute, step, hadmin, Loading.finish, readWhole, ← hpipeline]
    · refine ⟨h.version, h.now, h.files, rfl, h.queue, h.pending, h.watcher, ?_, fun snap' hsnap => ?_⟩
      · rw [h.admins, List.eraseIdx_map]
      · exact h.pipelines snap' (hsnap.imp_right List.mem_of_mem_eraseIdx)
  · simp at hs

end Events

theorem atomic_emits : Refinement.Emits (ReloadRace.step cfg) (fun _ _ => True) (step cfg) (emit cfg)
    (@Stands Src cfg) := by
  intro r s e r' h _ hs
  cases e with
  | change name src kind => exact emulated_change h hs
  | noise ev => exact emulated_noise h hs
  | deliver i => exact emulated_deliver h hs
  | tick => exact emulated_tick h hs
  | watcherStore => exact emulated_watcherStore h hs
  | adminLoad => exact emulated_adminLoad h hs
  | adminStore i => exact emulated_adminStore h hs

/-- Whatever atomic loads can do, loads that read file by file can. -/
theorem atomic_runs {r' : ReloadRace.State Src} {es : List (ReloadRace.Event Src)} (h : Stands cfg r s)
    (hrun : execute (ReloadRace.step cfg) r es = some r') :
    ∃ s', execute (step cfg) s (Refinement.emitted (ReloadRace.step cfg) (emit cfg) r es) = some s' ∧
      Stands cfg r' s' :=
  atomic_emits.run (Refinement.run_guarded (Run.of_execute hrun) fun _ _ _ => trivial) h

end Atomic

end LuaProxy.FileReads
