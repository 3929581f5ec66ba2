import LuaProxy.Transition
import LuaProxy.PluginReload

/-! Reloads that overlap. A reload reads the files and stores what it read as two steps, in
the watcher's task and in any number of `POST /reload` handlers, and files may change in
between. -/
namespace LuaProxy.ReloadRace
open Context Engine Transition

inductive EventKind
  | create
  | modify
  | remove
  | other
  deriving DecidableEq, Repr

/-- An event of the watcher library. -/
structure FsEvent where
  kind : EventKind
  paths : List String
  deriving DecidableEq, Repr

/-- `Path::extension`: what follows the last dot of the file name, unless that dot is its
first character. -/
def extension (path : String) : Option String :=
  let name := path.toList.reverse.takeWhile (· ≠ '/')
  match name.dropWhile (· ≠ '.') with
  | '.' :: _ :: _ => some (String.ofList (name.takeWhile (· ≠ '.')).reverse)
  | _ => none

/-- The events the watcher reacts to. -/
def FsEvent.relevant (ev : FsEvent) : Bool :=
  ev.kind ≠ .other && ev.paths.any fun p => extension p == some "lua"

/-- Sources with the number of file changes there had been when they were read. -/
structure Snapshot (Src : Type) where
  version : ℕ
  sources : PluginSources Src

structure State (Src : Type) where
  files : String → Src
  version : ℕ
  live : Snapshot Src
  /-- Events of the library that the watcher has not received yet. -/
  queue : List FsEvent
  pending : Bool
  /-- What the watcher has read and not stored yet; its task does nothing else meanwhile. -/
  watcher : Option (Snapshot Src)
  /-- What the `POST /reload` handlers have read and not stored yet. -/
  admins : List (Snapshot Src)

inductive Event (Src : Type)
  | change (name : String) (src : Src) (kind : EventKind)
  | noise (ev : FsEvent)
  | deliver (i : ℕ)
  | tick
  | watcherStore
  | adminLoad
  | adminStore (i : ℕ)

section Steps
variable {Src : Type} (cfg : PluginsConfig)

def State.load (s : State Src) : Snapshot Src :=
  ⟨s.version, PluginSources.load cfg fun name => some (s.files name)⟩

def pluginPath (name : String) : String := cfg.dir ++ "/" ++ name

/-- One step of the file system, the watcher or a handler, if it is possible. A change of a
pipeline file puts its event in the queue; events may come in any order. -/
def step (s : State Src) : Event Src → Option (State Src)
  | .change name src kind =>
    if name ∈ cfg.pipeline ∧ kind ≠ .other then
      some { s with
        files := Function.update s.files name src
        version := s.version + 1
        queue := s.queue ++ [⟨kind, [pluginPath cfg name]⟩] }
    else none
  | .noise ev => some { s with queue := s.queue ++ [ev] }
  | .deliver i =>
    match s.watcher, s.queue[i]? with
    | none, some ev =>
      some { s with queue := s.queue.eraseIdx i, pending := s.pending || ev.relevant }
    | _, _ => none
  | .tick =>
    match s.watcher with
    | none =>
      if s.pending then some { s with pending := false, watcher := some (s.load cfg) } else some s
    | some _ => none
  | .watcherStore =>
    match s.watcher with
    | some snap => some { s with live := snap, watcher := none }
    | none => none
  | .adminLoad => some { s with admins := s.admins ++ [s.load cfg] }
  | .adminStore i =>
    match s.admins[i]? with
    | some snap => some { s with live := snap, admins := s.admins.eraseIdx i }
    | none => none

def Started (s : State Src) : Prop :=
  s.live = s.load cfg ∧ s.queue = [] ∧ s.pending = false ∧ s.watcher = none ∧ s.admins = []

/-- All events are delivered, a tick has run since, and no reload is under way. -/
def Quiet (s : State Src) : Prop :=
  s.queue = [] ∧ s.pending = false ∧ s.watcher = none ∧ s.admins = []

def Converged (s : State Src) : Prop :=
  Quiet s → s.live.sources = PluginSources.load cfg fun name => some (s.files name)

/-- The step overwrites no newer sources by older ones and leaves converged sources. -/
def Safe (s s' : State Src) : Prop := s.live.version ≤ s'.live.version ∧ Converged cfg s'

/-- If the step stores, nothing read after a later change has been stored meanwhile. -/
def InOrder (s : State Src) : Event Src → Prop
  | .watcherStore => ∀ snap, s.watcher = some snap → s.live.version ≤ snap.version
  | .adminStore i => ∀ snap, s.admins[i]? = some snap → s.live.version ≤ snap.version
  | _ => True

/-- All files of the pipeline are Lua files. -/
def LuaFiles : Prop := ∀ name ∈ cfg.pipeline, extension (pluginPath cfg name) = some "lua"

/-- What was read at some version: not later than now, and if now, what is there now. -/
def Faithful (s : State Src) (snap : Snapshot Src) : Prop :=
  snap.version ≤ s.version ∧ (snap.version = s.version → snap = s.load cfg)

/-- Either the live sources are those of the files as they are, or the watcher will still
come to load them: an event is on its way, or noted, or it has just read the files. -/
structure Inv (s : State Src) : Prop where
  live : Faithful cfg s s.live
  watcher : ∀ snap, s.watcher = some snap → Faithful cfg s snap
  admins : ∀ snap ∈ s.admins, Faithful cfg s snap
  coming : s.live.version = s.version ∨ (∃ ev ∈ s.queue, ev.relevant) ∨ s.pending = true ∨
    ∃ snap, s.watcher = some snap ∧ snap.version = s.version

theorem load_faithful (s : State Src) : Faithful cfg s (s.load cfg) := ⟨le_rfl, fun _ => rfl⟩

theorem inv_started {s : State Src} (h : Started cfg s) : Inv cfg s := by
  obtain ⟨hlive, -, -, hw, ha⟩ := h
  refine ⟨?_, ?_, ?_, Or.inl ?_⟩
  · rw [hlive]
    exact load_faithful cfg s
  · intro snap hs
    simp [hw] at hs
  · intro snap hs
    simp [ha] at hs
  · rw [hlive]
    rfl

theorem inv_converged {s : State Src} (h : Inv cfg s) : Converged cfg s := by
  rintro ⟨hq, hp, hw, -⟩
  rcases h.coming with hv | ⟨ev, hev, -⟩ | hpend | ⟨snap, hs, -⟩
  · rw [h.live.2 hv]
    rfl
  · simp [hq] at hev
  · simp [hp] at hpend
  · simp [hw] at hs

theorem faithful_change {s s' : State Src} {snap : Snapshot Src} (hv : s'.version = s.version + 1)
    (h : Faithful cfg s snap) : Faithful cfg s' snap := by
  have hle := h.1
  refine ⟨by omega, fun he => ?_⟩
  omega

theorem mem_or_eq_of_eraseIdx {α : Type*} {l : List α} {i : ℕ} {a b : α} (ha : l[i]? = some a)
    (hb : b ∈ l) : b ∈ l.eraseIdx i ∨ b = a := by
  obtain ⟨hi, rfl⟩ := List.getElem?_eq_some_iff.mp ha
  have hm := (List.getElem_cons_eraseIdx_perm hi).mem_iff.mpr hb
  rcases List.mem_cons.mp hm with h | h
  · exact Or.inr h
  · exact Or.inl h

variable {cfg}

section Preserved
variable {s : State Src}

theorem Inv.change (hlua : LuaFiles cfg) {name : String} {kind : EventKind} (h : Inv cfg s)
    (src : Src) (hname : name ∈ cfg.pipeline) (hkind : kind ≠ .other) :
    Inv cfg { s with
      files := Function.update s.files name src
      version := s.version + 1
      queue := s.queue ++ [⟨kind, [pluginPath cfg name]⟩] } where
  live := faithful_change cfg rfl h.live
  watcher snap hw := faithful_change cfg rfl (h.watcher snap hw)
  admins snap ha := faithful_change cfg rfl (h.admins snap ha)
  coming := by
    refine Or.inr (Or.inl ⟨⟨kind, [pluginPath cfg name]⟩, by simp, ?_⟩)
    simp [FsEvent.relevant, hkind, hlua name hname]

theorem Inv.noise (h : Inv cfg s) (ev : FsEvent) : Inv cfg { s with queue := s.queue ++ [ev] } := by
  refine ⟨h.live, h.watcher, h.admins, ?_⟩
  rcases h.coming with hv | ⟨ev', hev, hr⟩ | hrest
  · exact Or.inl hv
  · exact Or.inr (Or.inl ⟨ev', List.mem_append_left _ hev, hr⟩)
  · exact Or.inr (Or.inr hrest)

/-- An event that leaves the queue is noted, if it is one the watcher reacts to. -/
theorem Inv.deliver {i : ℕ} {ev : FsEvent} (h : Inv cfg s) (hi : s.queue[i]? = some ev) :
    Inv cfg { s with queue := s.queue.eraseIdx i, pending := s.pending || ev.relevant } := by
  refine ⟨h.live, h.watcher, h.admins, ?_⟩
  rcases h.coming with hv | ⟨ev', hev, hr⟩ | hp | hsnap
  · exact Or.inl hv
  · rcases mem_or_eq_of_eraseIdx hi hev with hev | rfl
    · exact Or.inr (Or.inl ⟨ev', hev, hr⟩)
    · exact Or.inr (Or.inr (Or.inl (by simp [hr])))
  · exact Or.inr (Or.inr (Or.inl (by simp [hp])))
  · exact Or.inr (Or.inr (Or.inr hsnap))

theorem Inv.tick (h : Inv cfg s) :
    Inv cfg { s with pending := false, watcher := some (s.load cfg) } := by
  refine ⟨h.live, fun snap hsnap => ?_, h.admins, Or.inr (Or.inr (Or.inr ⟨_, rfl, rfl⟩))⟩
  obtain rfl := Option.some.inj hsnap
  exact load_faithful cfg s

/-- What the watcher stores in order is no older than what was live, so no change gets lost. -/
theorem Inv.watcherStore {snap : Snapshot Src} (h : Inv cfg s) (hw : s.watcher = some snap)
    (hle : s.live.version ≤ snap.version) : Inv cfg { s with live := snap, watcher := none } := by
  have hf := h.watcher snap hw
  refine ⟨hf, by simp, h.admins, ?_⟩
  rcases h.coming with hv | hev | hp | ⟨snap', hw', hv⟩
  · exact Or.inl (le_antisymm hf.1 (hv ▸ hle))
  · exact Or.inr (Or.inl hev)
  · exact Or.inr (Or.inr (Or.inl hp))
  · rw [hw] at hw'
    obtain rfl := Option.some.inj hw'
    exact Or.inl hv

theorem Inv.adminLoad (h : Inv cfg s) : Inv cfg { s with admins := s.admins ++ [s.load cfg] } := by
  refine ⟨h.live, h.watcher, fun snap hsnap => ?_, h.coming⟩
  rcases List.mem_append.mp hsnap with hsnap | hsnap
  · exact h.admins snap hsnap
  · obtain rfl := List.mem_singleton.mp hsnap
    exact load_faithful cfg s

theorem Inv.adminStore {i : ℕ} {snap : Snapshot Src} (h : Inv cfg s) (hi : s.admins[i]? = some snap)
    (hle : s.live.version ≤ snap.version) :
    Inv cfg { s with live := snap, admins := s.admins.eraseIdx i } := by
  have hf := h.admins snap (List.mem_of_getElem? hi)
  refine ⟨hf, h.watcher, fun snap' hs' => h.admins snap' (List.mem_of_mem_eraseIdx hs'), ?_⟩
  rcases h.coming with hv | hrest
  · exact Or.inl (le_antisymm hf.1 (hv ▸ hle))
  · exact Or.inr hrest

end Preserved

theorem inv_step (hlua : LuaFiles cfg) {s s' : State Src} {e : Event Src}
    (hs : step cfg s e = some s') (ho : InOrder s e) (h : Inv cfg s) : Inv cfg s' := by
  cases e with
  | change name src kind =>
    simp only [step] at hs
    split_ifs at hs with hc
    obtain rfl := Option.some.inj hs
    exact h.change hlua src hc.1 hc.2
  | noise ev =>
    obtain rfl := Option.some.inj hs
    exact h.noise ev
  | deliver i =>
    simp only [step] at hs
    split at hs
    · rename_i ev _ hi
      obtain rfl := Option.some.inj hs
      exact h.deliver hi
    · simp at hs
  | tick =>
    simp only [step] at hs
    split at hs
    · split_ifs at hs
      · obtain rfl := Option.some.inj hs
        exact h.tick
      · obtain rfl := Option.some.inj hs
        exact h
    · simp at hs
  | watcherStore =>
    simp only [step] at hs
    split at hs
    · rename_i snap hw
      obtain rfl := Option.some.inj hs
      exact h.watcherStore hw (ho snap hw)
    · simp at hs
  | adminLoad =>
    obtain rfl := Option.some.inj hs
    exact h.adminLoad
  | adminStore i =>
    simp only [step] at hs
    split at hs
    · rename_i snap hi
      obtain rfl := Option.some.inj hs
      exact h.adminStore hi (ho snap hi)
    · simp at hs

theorem inOrder_safe (hlua : LuaFiles cfg) {s s' : State Src} {e : Event Src}
    (hs : step cfg s e = some s') (ho : InOrder s e) (h : Inv cfg s) : Safe cfg s s' := by
  refine ⟨?_, inv_converged cfg (inv_step hlua hs ho h)⟩
  cases e with
  | watcherStore =>
    simp only [step] at hs
    split at hs
    · rename_i snap hw
      obtain rfl := Option.some.inj hs
      exact ho snap hw
    · simp at hs
  | adminStore i =>
    simp only [step] at hs
    split at hs
    · rename_i snap hi
      obtain rfl := Option.some.inj hs
      exact ho snap hi
    · simp at hs
  | _ =>
    simp only [step] at hs
    grind

theorem safe_inOrder {s s' : State Src} {e : Event Src} (hs : step cfg s e = some s')
    (h : s.live.version ≤ s'.live.version) : InOrder s e := by
  cases e with
  | watcherStore =>
    intro snap hw
    simp only [step, hw, Option.some.injEq] at hs
    subst hs
    exact h
  | adminStore i =>
    intro snap hi
    simp only [step, hi, Option.some.injEq] at hs
    subst hs
    exact h
  | _ => trivial

/-- A run from the start is safe at every step exactly if its reloads store in the order of
the file versions they read. -/
theorem safe_iff_inOrder (hlua : LuaFiles cfg) {s₀ s : State Src} {es : List (Event Src)}
    (h₀ : Started cfg s₀) :
    Run (fun s e s' => step cfg s e = some s' ∧ Safe cfg s s') s₀ es s ↔
      Run (fun s e s' => step cfg s e = some s' ∧ InOrder s e) s₀ es s := by
  constructor
  · intro h
    refine h.mono (I := fun _ => True) ?_ trivial
    rintro s e s' ⟨hs, hle, -⟩ -
    exact ⟨⟨hs, safe_inOrder hs hle⟩, trivial⟩
  · intro h
    refine h.mono (I := Inv cfg) ?_ (inv_started cfg h₀)
    rintro s e s' ⟨hs, ho⟩ hi
    exact ⟨⟨hs, inOrder_safe hlua hs ho hi⟩, inv_step hlua hs ho hi⟩

/-- No reload reads the files while another one has read them and not stored yet. -/
def Serial (s : State Src) : Event Src → Prop
  | .tick => s.pending = true → s.admins = []
  | .adminLoad => s.watcher = none ∧ s.admins = []
  | _ => True

/-- At most one reload is under way, and it has read what was live then, or newer. -/
structure Single (s : State Src) : Prop where
  apart : s.watcher = none ∨ s.admins = []
  alone : s.admins.length ≤ 1
  live : s.live.version ≤ s.version
  watcher : ∀ snap, s.watcher = some snap → s.live.version ≤ snap.version ∧ snap.version ≤ s.version
  admins : ∀ snap ∈ s.admins, s.live.version ≤ snap.version ∧ snap.version ≤ s.version

theorem single_started {s : State Src} (h : Started cfg s) : Single s := by
  obtain ⟨hlive, -, -, hw, ha⟩ := h
  exact ⟨Or.inl hw, by simp [ha], by rw [hlive]; exact le_rfl, by simp [hw], by simp [ha]⟩

theorem Single.inOrder {s : State Src} (h : Single s) (e : Event Src) : InOrder s e := by
  cases e with
  | watcherStore => exact fun snap hw => (h.watcher snap hw).1
  | adminStore i => exact fun snap hi => (h.admins snap (List.mem_of_getElem? hi)).1
  | _ => trivial

theorem single_step {s s' : State Src} {e : Event Src} (hs : step cfg s e = some s')
    (hserial : Serial s e) (h : Single s) : Single s' := by
  cases e with
  | change name src kind =>
    simp only [step] at hs
    split_ifs at hs
    obtain rfl := Option.some.inj hs
    have hlater : ∀ snap : Snapshot Src, s.live.version ≤ snap.version ∧ snap.version ≤ s.version →
        s.live.version ≤ snap.version ∧ snap.version ≤ s.version + 1 :=
      fun snap hsnap => ⟨hsnap.1, Nat.le_succ_of_le hsnap.2⟩
    exact ⟨h.apart, h.alone, Nat.le_succ_of_le h.live, fun snap hw => hlater snap (h.watcher snap hw),
      fun snap ha => hlater snap (h.admins snap ha)⟩
  | noise ev =>
    obtain rfl := Option.some.inj hs
    exact ⟨h.apart, h.alone, h.live, h.watcher, h.admins⟩
  | deliver i =>
    simp only [step] at hs
    split at hs
    · obtain rfl := Option.some.inj hs
      exact ⟨h.apart, h.alone, h.live, h.watcher, h.admins⟩
    · simp at hs
  | tick =>
    simp only [step] at hs
    split at hs
    · split_ifs at hs with hp
      · obtain rfl := Option.some.inj hs
        refine ⟨Or.inr (hserial hp), h.alone, h.live, fun snap hw => ?_, h.admins⟩
        obtain rfl := Option.some.inj hw
        exact ⟨h.live, le_rfl⟩
      · obtain rfl := Option.some.inj hs
        exact h
    · simp at hs
  | watcherStore =>
    simp only [step] at hs
    split at hs
    · rename_i snap hw
      obtain rfl := Option.some.inj hs
      have hnone : s.admins = [] := h.apart.resolve_left (by simp [hw])
      exact ⟨Or.inl rfl, h.alone, (h.watcher snap hw).2, by simp, by simp [hnone]⟩
    · simp at hs
  | adminLoad =>
    obtain rfl := Option.some.inj hs
    refine ⟨Or.inl hserial.1, by simp [hserial.2], h.live, h.watcher, fun snap hsnap => ?_⟩
    rw [hserial.2, List.nil_append, List.mem_singleton] at hsnap
    rw [hsnap]
    exact ⟨h.live, le_rfl⟩
  | adminStore i =>
    simp only [step] at hs
    split at hs
    · rename_i snap hi
      obtain rfl := Option.some.inj hs
      have hne : s.admins ≠ [] := List.ne_nil_of_mem (List.mem_of_getElem? hi)
      have hnone : s.admins.eraseIdx i = [] := by
        have hlt := (List.getElem?_eq_some_iff.mp hi).1
        have hone := h.alone
        rw [← List.length_eq_zero_iff, List.length_eraseIdx_of_lt hlt]
        omega
      have hw := h.apart.resolve_right hne
      exact ⟨Or.inl hw, by simp [hnone], (h.admins snap (List.mem_of_getElem? hi)).2, by simp [hw],
        by simp [hnone]⟩
    · simp at hs

/-- Reloads that are let in one at a time are safe. -/
theorem serial_safe (hlua : LuaFiles cfg) {s₀ s : State Src} {es : List (Event Src)}
    (h₀ : Started cfg s₀) (hrun : Run (fun s e s' => step cfg s e = some s' ∧ Serial s e) s₀ es s) :
    Run (fun s e s' => step cfg s e = some s' ∧ Safe cfg s s') s₀ es s := by
  refine hrun.mono (I := fun s => Inv cfg s ∧ Single s) ?_ ⟨inv_started cfg h₀, single_started h₀⟩
  rintro s e s' ⟨hs, hserial⟩ ⟨hinv, hsingle⟩
  have ho := hsingle.inOrder e
  exact ⟨⟨hs, inOrder_safe hlua hs ho hinv⟩, inv_step hlua hs ho hinv, single_step hs hserial hsingle⟩

end Steps

section Overlap

def onePlugin : PluginsConfig := ⟨"plugins", ["auth.lua"]⟩

def startState : State String where
  files _ := "old"
  version := 0
  live := ⟨0, PluginSources.load onePlugin fun _ => some "old"⟩
  queue := []
  pending := false
  watcher := none
  admins := []

theorem started_startState : Started onePlugin startState := ⟨rfl, rfl, rfl, rfl, rfl⟩

theorem luaFiles_onePlugin : LuaFiles onePlugin := by
  unfold LuaFiles
  decide

/-- A change that the watcher loads on its next tick, beside a reload that is over before. -/
theorem watcher_run_safe :
    ∃ s, Run (fun s e s' => step onePlugin s e = some s' ∧ Safe onePlugin s s') startState
      [.adminLoad, .adminStore 0, .change "auth.lua" "new" .modify, .deliver 0, .tick,
        .watcherStore] s := by
  have hrun : Run (fun s e s' => step onePlugin s e = some s' ∧ InOrder s e) startState
      [.adminLoad, .adminStore 0, .change "auth.lua" "new" .modify, .deliver 0, .tick,
        .watcherStore] _ :=
    .cons ⟨rfl, trivial⟩ (.cons ⟨rfl, by rintro snap ⟨⟩; decide⟩ (.cons ⟨rfl, trivial⟩
      (.cons ⟨rfl, trivial⟩ (.cons ⟨rfl, trivial⟩ (.cons ⟨rfl, by rintro snap ⟨⟩; decide⟩
        (.nil _))))))
  exact ⟨_, (safe_iff_inOrder luaFiles_onePlugin started_startState).mpr hrun⟩

/-- A handler reads the old file, the watcher loads and stores the new one, and the handler
stores the old one over it. -/
theorem admin_overwrites_newer :
    ¬ ∀ (cfg : PluginsConfig) (s₀ s : State String) (es : List (Event String)), LuaFiles cfg →
      Started cfg s₀ → Run (fun s e s' => step cfg s e = some s') s₀ es s → Converged cfg s := by
  intro h
  have hrun : Run (fun s e s' => step onePlugin s e = some s') startState
      [.adminLoad, .change "auth.lua" "new" .modify, .deliver 0, .tick, .watcherStore,
        .adminStore 0] _ :=
    .cons rfl (.cons rfl (.cons rfl (.cons rfl (.cons rfl (.cons rfl (.nil _))))))
  have hc := h onePlugin startState _ _ luaFiles_onePlugin started_startState hrun
    ⟨rfl, rfl, rfl, rfl⟩
  have hl := congrArg (fun p : PluginSources String => p.sources.lookup "auth.lua") hc
  exact absurd hl (by decide)

end Overlap

end LuaProxy.ReloadRace
