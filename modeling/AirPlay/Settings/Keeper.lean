import AirPlay.Library.Debounce
import AirPlay.Settings.RoundTrip

/-! The settings are written while the receiver runs.

Every turn of the main loop takes a snapshot of the live settings. One that is not what was
saved last is saved once no turn has seen it change for half a second; a turn that fails to
save tries again half a second later. What the receiver starts with counts as saved. -/
namespace AirPlay.Settings.Keeper
open Debounce

/-- Half a second on the steady clock. -/
def quiet : Int := 500000000

/-- A turn of the loop: the time it reads, the snapshot it takes, and what becomes of a
writer. -/
structure Turn where
  now : Int
  current : PersistentSettings
  outcome : Outcome := {}

/-- What the main loop knows of the settings, and the disk. -/
structure State where
  disk : Disk
  lastSaved : PersistentSettings
  observed : PersistentSettings
  changedAt : Int

/-- Before the loop. -/
def begin (disk : Disk) (first : Turn) : State := ⟨disk, first.current, first.current, first.now⟩

def observe (s : State) (t : Turn) : State :=
  if t.current ≠ s.observed then {s with observed := t.current, changedAt := t.now} else s

/-- The turn calls the writer. -/
def Saves (s : State) (t : Turn) : Prop :=
  t.current ≠ (observe s t).lastSaved ∧ t.now - (observe s t).changedAt ≥ quiet

instance (s : State) (t : Turn) : Decidable (Saves s t) := inferInstanceAs (Decidable (_ ∧ _))

def turn (platform : Platform) (path : Bytes) (s : State) (t : Turn) : State :=
  let o := observe s t
  if Saves s t then
    let (saved, disk) := saveSettings platform t.current path t.outcome o.disk
    {o with
      disk := disk
      lastSaved := if saved then t.current else o.lastSaved
      changedAt := t.now}
  else o

def machine (platform : Platform) (path : Bytes) : Machine State Turn := ⟨turn platform path⟩

/-! ### The loop is a watcher -/

/-- The writer comes to its end. -/
def stores (path : Bytes) (o : Outcome) : Bool :=
  path ≠ [] && o.directory && o.opened && o.finished && o.replaced

def sight (path : Bytes) (t : Turn) : Sight PersistentSettings :=
  ⟨t.now, t.current, stores path t.outcome⟩

def watch (s : State) : Debounce PersistentSettings := ⟨s.lastSaved, s.observed, s.changedAt⟩

section Watcher
variable {platform : Platform} {path : Bytes}

theorem saveSettings_fst (s : PersistentSettings) (o : Outcome) (disk : Disk) :
    (saveSettings platform s path o disk).1 = stores path o := by
  obtain ⟨directory, opened, finished, replaced, left⟩ := o
  rw [saveSettings, stores]
  by_cases hpath : path = []
  · rw [if_pos hpath, decide_eq_false (not_not.mpr hpath)]
    rfl
  · rw [if_neg hpath, decide_eq_true hpath]
    cases directory <;> cases opened <;> cases finished <;> cases replaced <;> rfl

theorem watch_observe (s : State) (t : Turn) :
    watch (observe s t) = ⟨s.lastSaved, t.current, (watch s).resting (sight path t)⟩ := by
  by_cases h : t.current = s.observed
  · rw [observe, if_neg (not_not.mpr h), resting_of_seen h, h]
    rfl
  · rw [observe, if_pos h, resting_of_ne h]
    rfl

theorem saves_iff (s : State) (t : Turn) : Saves s t ↔ Due quiet (watch s) (sight path t) := by
  have hwatch := @watch_observe path s t
  have hkept : (observe s t).lastSaved = s.lastSaved := congrArg Debounce.kept hwatch
  have hsince : (observe s t).changedAt = (watch s).resting (sight path t) :=
    congrArg Debounce.since hwatch
  rw [Saves, hkept, hsince]
  rfl

theorem watch_turn (s : State) (t : Turn) :
    watch (turn platform path s t) = (Debounce.machine quiet).step (watch s) (sight path t) := by
  have hwatch := @watch_observe path s t
  have hkept : (observe s t).lastSaved = s.lastSaved := congrArg Debounce.kept hwatch
  have hseen : (observe s t).observed = t.current := congrArg Debounce.seen hwatch
  by_cases h : Saves s t
  · rw [turn, step_due ((saves_iff s t).mp h)]
    simp only [if_pos h, watch, saveSettings_fst, hkept, hseen]
    rfl
  · rw [turn, step_not_due (mt (saves_iff s t).mpr h)]
    simp only [if_neg h]
    exact hwatch

theorem watch_run (s : State) (ts : List Turn) :
    watch ((machine platform path).run s ts) =
      (Debounce.machine quiet).run (watch s) (ts.map (sight path)) := by
  induction ts generalizing s with
  | nil => rfl
  | cons t rest ih =>
    show watch ((machine platform path).run (turn platform path s t) rest) = _
    rw [ih, watch_turn]
    rfl

theorem meets_watch {s : State} {ts : List Turn} :
    (machine platform path).Meets (fun s t => ¬ Saves s t) s ts ↔
      (Debounce.machine quiet).Meets (fun d e => ¬ Due quiet d e) (watch s)
        (ts.map (sight path)) := by
  induction ts generalizing s with
  | nil => exact Iff.rfl
  | cons t rest ih =>
    refine and_congr (not_congr (saves_iff s t)) ?_
    rw [← @watch_turn platform]
    exact ih

end Watcher

/-! ### Runs -/

/-- The last turn, the start included. -/
def latest (first : Turn) (ts : List Turn) : Turn := ts.getLast?.getD first

def Ordered (ts : List Turn) : Prop := ts.Pairwise fun a b => a.now ≤ b.now

theorem sight_now (path : Bytes) (t : Turn) : t.now = (sight path t).now := rfl

theorem sight_latest (path : Bytes) (first : Turn) (ts : List Turn) :
    sight path (latest first ts) = Debounce.latest (sight path first) (ts.map (sight path)) := by
  rw [latest, Debounce.latest, List.getLast?_map]
  cases ts.getLast? <;> rfl

theorem ordered_map {path : Bytes} {ts : List Turn} (h : Ordered ts) :
    Debounce.Ordered (ts.map (sight path)) := List.pairwise_map.mpr h

section Runs
variable {platform : Platform} {path : Bytes} {disk : Disk} {first : Turn}

/-- A turn calls the writer when its settings are not the saved ones, and the turns of the
last half second saw the same and did not call it. -/
theorem saves_run_iff {ts : List Turn} {t : Turn} (hordered : Ordered (first :: ts)) :
    Saves ((machine platform path).run (begin disk first) ts) t ↔
      t.current ≠ ((machine platform path).run (begin disk first) ts).lastSaved ∧
      ∃ before after, ts = before ++ after ∧
        (∀ x ∈ latest first before :: after, x.current = t.current) ∧
        (machine platform path).Meets (fun s x => ¬ Saves s x)
          ((machine platform path).run (begin disk first) before) after ∧
        quiet ≤ t.now - (latest first before).now := by
  have hstart : watch (begin disk first) = Debounce.begin (sight path first) := rfl
  have hkept : ((machine platform path).run (begin disk first) ts).lastSaved =
      ((Debounce.machine quiet).run (Debounce.begin (sight path first))
        (ts.map (sight path))).kept := by
    rw [← hstart, ← @watch_run platform]
    rfl
  rw [@saves_iff path, watch_run, hstart,
    due_iff (show 0 < quiet by decide) (@ordered_map path (first :: ts) hordered), hkept]
  refine and_congr_right fun _ => ?_
  have hnow : ∀ before : List Turn, (Debounce.latest (sight path first)
      (before.map (sight path))).now = (latest first before).now := fun before => by
    rw [← sight_latest]
    rfl
  constructor
  · rintro ⟨before', after', heq, hsame, hmeets, hwhile⟩
    obtain ⟨before, after, rfl, rfl, rfl⟩ := List.map_eq_append_iff.mp heq
    refine ⟨before, after, rfl, fun x hx => ?_, ?_, ?_⟩
    · rw [← sight_latest] at hsame
      exact hsame _ (List.mem_map_of_mem hx)
    · rw [meets_watch, watch_run]
      exact hmeets
    · rw [← hnow]
      exact hwhile
  · rintro ⟨before, after, rfl, hsame, hmeets, hwhile⟩
    refine ⟨before.map (sight path), after.map (sight path), List.map_append, ?_, ?_, ?_⟩
    · rw [← sight_latest, ← List.map_cons]
      intro x hx
      obtain ⟨y, hy, rfl⟩ := List.mem_map.mp hx
      exact hsame y hy
    · rw [meets_watch, watch_run] at hmeets
      exact hmeets
    · rw [hnow]
      exact hwhile

/-- A window that is made to fill the screen is saved half a second later. -/
theorem fullscreen_saved :
    Saves ((machine .posix (bytes "settings.ini")).run (begin (fun _ => none) ⟨0, {}, {}⟩)
      [⟨50000000, {fullscreen := true}, {}⟩]) ⟨550000000, {fullscreen := true}, {}⟩ := by
  refine (saves_run_iff ?_).mpr ⟨?_, [⟨50000000, {fullscreen := true}, {}⟩], [], rfl, ?_,
    trivial, ?_⟩
  · exact List.pairwise_pair.mpr (by decide)
  · decide +kernel
  · exact List.forall_mem_singleton.mpr rfl
  · decide

/-- What is on the disk: the settings saved last, or the file the receiver started with. -/
def OnDisk (platform : Platform) (path : Bytes) (disk : Disk) (first : Turn) (s : State) : Prop :=
  path ≠ [] ∧ s.disk path = some (platform.encode (settingsText s.lastSaved)) ∨
    s.disk path = disk path ∧ s.lastSaved = first.current

theorem onDisk_turn {s : State} {t : Turn} (h : OnDisk platform path disk first s) :
    OnDisk platform path disk first (turn platform path s t) := by
  have hobserve : (observe s t).disk = s.disk ∧ (observe s t).lastSaved = s.lastSaved := by
    rw [observe]
    split
    · exact ⟨rfl, rfl⟩
    · exact ⟨rfl, rfl⟩
  have hlast : OnDisk platform path disk first (observe s t) := by
    rw [OnDisk, hobserve.1, hobserve.2]
    exact h
  rw [turn]
  by_cases hsaves : Saves s t
  · simp only [if_pos hsaves]
    cases hsave : saveSettings platform t.current path t.outcome (observe s t).disk with
    | mk saved disk' =>
      cases saved with
      | true => exact .inl (of_saved hsave)
      | false =>
        rw [OnDisk, ← of_not_saved hsave] at hlast
        exact hlast
  · simp only [if_neg hsaves]
    exact hlast

theorem onDisk_run (ts : List Turn) :
    OnDisk platform path disk first ((machine platform path).run (begin disk first) ts) := by
  have hbegin : OnDisk platform path disk first (begin disk first) := .inr ⟨rfl, rfl⟩
  exact @Machine.run_keeps _ _ (machine platform path) (OnDisk platform path disk first)
    (fun _ _ h => onDisk_turn h) _ ts hbegin

/-- Settings that are on show for half a second, while a writer would succeed, are what is
loaded when the receiver is then cut off; those it started with, if the file had them. -/
theorem settings_survive {before after : List Turn} {u : Turn} {s : PersistentSettings}
    (hordered : Ordered (first :: before ++ [u])) (hsame : ∀ t ∈ u :: after, t.current = s)
    (hstores : ∀ t ∈ u :: after, stores path t.outcome)
    (hwhile : quiet ≤ (latest u after).now - u.now) (hstorable : Storable s)
    (hname : s.receiverName ≠ [])
    (hfirst : s = first.current → loadSettings platform path disk = s) :
    loadSettings platform path
      ((machine platform path).run (begin disk first) (before ++ u :: after)).disk = s := by
  have hkept : ((machine platform path).run (begin disk first) (before ++ u :: after)).lastSaved =
      s := by
    have hlooks : Debounce.Ordered
        (sight path first :: before.map (sight path) ++ [sight path u]) := by
      have hmap := @ordered_map path _ hordered
      rw [List.map_append] at hmap
      exact hmap
    have hvalues : ∀ e ∈ sight path u :: after.map (sight path), e.value = s := by
      rw [← List.map_cons, List.forall_mem_map]
      exact hsame
    have hstored : ∀ e ∈ sight path u :: after.map (sight path), e.stored = true := by
      rw [← List.map_cons, List.forall_mem_map]
      exact hstores
    rw [sight_now path, sight_latest, sight_now path] at hwhile
    have hsights := kept_of_seen (show 0 < quiet by decide) hlooks hvalues hstored hwhile
    rw [← List.map_cons, ← List.map_append, show Debounce.begin (sight path first) =
      watch (begin disk first) from rfl, ← @watch_run platform] at hsights
    exact hsights
  rcases @onDisk_run platform path disk first (before ++ u :: after) with
    ⟨hpath, hcontent⟩ | ⟨hcontent, hlast⟩
  · rw [loadSettings_eq hpath hcontent, hkept]
    exact foldl_settingsText hstorable hname platform
  · rw [← hfirst (hkept.symm.trans hlast), loadSettings, loadSettings, hcontent]

end Runs

/-- A window that fills the screen for half a second does when the receiver starts again. -/
theorem fullscreen_survives :
    loadSettings .posix (bytes "settings.ini")
      ((machine .posix (bytes "settings.ini")).run (begin (fun _ => none) ⟨0, {}, {}⟩)
        ([] ++ ⟨50000000, {fullscreen := true}, {}⟩ ::
          [⟨550000000, {fullscreen := true}, {}⟩])).disk = {fullscreen := true} := by
  refine settings_survive ?_ ?_ ?_ ?_ ⟨fun k => ?_, ?_, ?_⟩ ?_ ?_
  · exact List.pairwise_pair.mpr (by decide)
  · exact List.forall_mem_cons.mpr ⟨rfl, List.forall_mem_singleton.mpr rfl⟩
  · exact List.forall_mem_cons.mpr ⟨rfl, List.forall_mem_singleton.mpr rfl⟩
  · decide
  · cases k <;> first
      | exact .inl rfl
      | exact .inr trivial
  · decide +kernel
  · exact fun b hb => absurd hb List.not_mem_nil
  · decide
  · exact fun h => absurd (congrArg PersistentSettings.fullscreen h) (by decide)

end AirPlay.Settings.Keeper
