import LuaProxy.Engine

/-! Reloading the plugins, from the file watcher (`watcher.rs`) and from the admin API
(`admin.rs`). Both have a branch for a failed reload, but the loader never fails: it leaves a
file that it cannot read out of the sources. -/
namespace LuaProxy.PluginReload
open Text Context Engine

inductive Caller
  | watcher
  | admin
  deriving DecidableEq, Repr

/-- One reload: who asks for it, and what reading each file gives while it runs. -/
structure Reload (Src : Type) where
  caller : Caller
  reads : String → Option Src

inductive Report
  | reloaded
  | failed (e : String)
  deriving DecidableEq, Repr

/-- The body `POST /reload` answers with; the watcher only logs. -/
def Report.body : Report → String
  | .reloaded => "\x7b\"status\":\"ok\",\"message\":\"plugins reloaded\"\x7d"
  | .failed e => "\x7b\"status\":\"error\",\"message\":\"" ++ e ++ "\"\x7d"

section Reload
variable {Src : Type} (cfg : PluginsConfig)

/-- `PluginSources::load` as its callers see it: a result. -/
def loadResult (readToString : String → Option Src) : Except String (PluginSources Src) :=
  .ok (PluginSources.load cfg readToString)

/-- The branch on the result, which is the same in both callers. -/
def reload (r : Reload Src) (live : PluginSources Src) : PluginSources Src × Report :=
  match loadResult cfg r.reads with
  | .ok new => (new, .reloaded)
  | .error e => (live, .failed e)

/-- `GET /plugins` -/
def pluginsBody (live : PluginSources Src) : String :=
  "\x7b\"plugins\":[" ++ ",".intercalate (live.pipeline.map fun s => "\"" ++ s ++ "\"") ++ "]\x7d"

/-- Every plugin of the pipeline has a source. -/
def Complete (live : PluginSources Src) : Prop :=
  ∀ name ∈ live.pipeline, (live.sources.lookup name).isSome

/-- Some file of the pipeline cannot be read. -/
def Reload.Fails (r : Reload Src) : Prop := ∃ name ∈ cfg.pipeline, r.reads name = none

/-- All-or-nothing over a sequence of reloads: the live sources are complete all along, and a
reload that cannot read everything changes nothing and says so. -/
def AllOrNothing : List (Reload Src) → PluginSources Src → Prop
  | [], live => Complete live
  | r :: rs, live =>
    Complete live ∧ (r.Fails cfg → ∃ e, reload cfg r live = (live, .failed e)) ∧
      AllOrNothing rs (reload cfg r live).1

theorem foldl_lookup (readToString : String → Option Src) (names : List String)
    (t : HashMap Src) (name : String) :
    (names.foldl
      (fun sources name =>
        match readToString name with
        | some src => sources.insert name src
        | none => sources) t).lookup name =
      if name ∈ names then (readToString name).or (t.lookup name) else t.lookup name := by
  induction names generalizing t with
  | nil => simp
  | cons n names ih =>
    rw [List.foldl_cons, ih]
    by_cases hn : name = n
    · subst hn
      cases hr : readToString name <;> simp
    · cases hr : readToString n <;> simp [hn]

/-- The loaded sources have exactly the files of the pipeline that could be read. -/
theorem load_lookup (readToString : String → Option Src) (name : String) :
    (PluginSources.load cfg readToString).sources.lookup name =
      if name ∈ cfg.pipeline then readToString name else none := by
  have h := foldl_lookup readToString cfg.pipeline ∅ name
  simp only [AList.lookup_empty, Option.or_none] at h
  exact h

theorem load_complete {r : Reload Src} (h : ¬ r.Fails cfg) :
    Complete (PluginSources.load cfg r.reads) := by
  intro name hname
  have hname : name ∈ cfg.pipeline := hname
  rw [load_lookup, if_pos hname]
  by_contra hnone
  exact h ⟨name, hname, by simpa using hnone⟩

/-- Reloads are all-or-nothing exactly when all of them can read every file. -/
theorem allOrNothing_iff (rs : List (Reload Src)) (live : PluginSources Src) :
    AllOrNothing cfg rs live ↔ Complete live ∧ ∀ r ∈ rs, ¬ r.Fails cfg := by
  induction rs generalizing live with
  | nil => simp [AllOrNothing]
  | cons r rs ih =>
    have hnew : (reload cfg r live).1 = PluginSources.load cfg r.reads := rfl
    simp only [AllOrNothing, ih, List.mem_cons, forall_eq_or_imp]
    constructor
    · rintro ⟨hlive, hfail, -, hrs⟩
      refine ⟨hlive, ?_, hrs⟩
      -- the loader's result is never an error
      intro hf
      obtain ⟨e, he⟩ := hfail hf
      exact Report.noConfusion (congrArg Prod.snd he)
    · rintro ⟨hlive, hr, hrs⟩
      refine ⟨hlive, fun hf => absurd hf hr, ?_, hrs⟩
      rw [hnew]
      exact load_complete cfg hr

end Reload

section Partial

def twoPlugins : PluginsConfig := ⟨"plugins", ["auth.lua", "authz.lua"]⟩

/-- A reload while `auth.lua` is being replaced. -/
def partialReload : Reload String :=
  ⟨.admin, fun name => if name = "auth.lua" then none else some "-- authz"⟩

/-- Its report is a success, and `auth.lua` is gone from the live sources. -/
theorem partial_reload_stored :
    ¬ ∀ (cfg : PluginsConfig) (rs : List (Reload String)) (live : PluginSources String),
      Complete live → AllOrNothing cfg rs live := by
  intro h
  have hlive : Complete (PluginSources.load twoPlugins fun _ => some "-- lua") := by
    intro name hname
    have hname : name ∈ twoPlugins.pipeline := hname
    rw [load_lookup, if_pos hname]
    rfl
  obtain ⟨-, hfail, -⟩ := h twoPlugins [partialReload] _ hlive
  obtain ⟨e, he⟩ := hfail ⟨"auth.lua", by decide, rfl⟩
  have hreport : (reload twoPlugins partialReload
      (PluginSources.load twoPlugins fun _ => some "-- lua")).2 = .reloaded := rfl
  rw [he] at hreport
  exact Report.noConfusion hreport

end Partial

end LuaProxy.PluginReload
