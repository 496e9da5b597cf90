import AirPlay.Settings.Persistent

/-! What a settings file keeps.

A reader does to a setting what the lines of its key say and nothing else
(`get_foldl`): whatever a file holds, its settings are their defaults or in range, and
lines of one key do not touch the settings of others. What a writer puts down is read
back, but for an empty name. -/
namespace AirPlay.Settings
open Bytes

namespace Setting

theorem get_put_self (k : Setting) (v : k.Value) (s : PersistentSettings) :
    k.get (k.put v s) = v := by
  cases k <;> rfl

theorem get_put_ne {j k : Setting} (h : j ≠ k) (v : k.Value) (s : PersistentSettings) :
    j.get (k.put v s) = j.get s := by
  cases k <;> cases j <;> first | rfl | exact absurd rfl h

/-- Settings are what is read of them. -/
theorem ext {s t : PersistentSettings} (h : ∀ k : Setting, k.get s = k.get t) : s = t := by
  have hui : s.ui = t.ui := UiPreferences.ext (h .diagnostics) (h .windowPlacementValid)
    (h .windowX) (h .windowY) (h .windowWidth) (h .windowHeight) (h .windowMaximized)
    (h .recordingDirectory) (h .recordingCodec) (h .recordingEncoder) (h .recordingBitrate)
  exact PersistentSettings.ext (h .receiverName) (h .mirrorWidth) (h .mirrorHeight)
    (h .hevcEnabled) (h .maxFps) (h .refreshRate) (h .mirrorHwaccel) (h .vsyncEnabled)
    (h .fullscreen) (h .chromeless) (h .videoRotation) hui

theorem find_key (k : Setting) : all.find? (·.key == k.key) = some k := by
  cases k <;> rfl

theorem key_injective {j k : Setting} (h : j.key = k.key) : j = k :=
  Option.some.inj ((find_key j).symm.trans (h ▸ find_key k))

/-- What a line gives a setting. -/
def given (k : Setting) (line : Bytes) : Option k.Value :=
  (parseLine line).bind fun entry => if entry.1 = k.key then k.accepted entry.2 else none

end Setting

/-! ### A reader's loop -/

theorem get_applyLine (k : Setting) (s : PersistentSettings) (line : Bytes) :
    k.get (applyLine s line) = (k.given line).getD (k.get s) := by
  rw [applyLine, Setting.given]
  cases parseLine line with
  | none => rfl
  | some entry =>
    obtain ⟨key, val⟩ := entry
    simp only [Option.bind_some]
    cases hfind : Setting.all.find? (·.key == key) with
    | none =>
      have hkey : key ≠ k.key := by
        rintro rfl
        exact absurd (hfind.symm.trans k.find_key) (Option.some_ne_none k).symm
      rw [if_neg hkey]
      rfl
    | some j =>
      have hj : (j.key == key) = true := @List.find?_some _ (·.key == key) j _ hfind
      replace hj : j.key = key := eq_of_beq hj
      subst hj
      by_cases hk : j = k
      · subst hk
        rw [if_pos rfl]
        cases haccepted : j.accepted val with
        | none => simp only [haccepted, Option.getD_none]
        | some v => simp only [haccepted, Setting.get_put_self, Option.getD_some]
      · rw [if_neg (mt Setting.key_injective hk)]
        cases haccepted : j.accepted val with
        | none => simp only [haccepted, Option.getD_none]
        | some v => simp only [haccepted, Setting.get_put_ne (Ne.symm hk), Option.getD_none]

theorem get_foldl (k : Setting) (s : PersistentSettings) (lines : List Bytes) :
    k.get (lines.foldl applyLine s) =
      lines.foldl (fun v line => (k.given line).getD v) (k.get s) := by
  induction lines generalizing s with
  | nil => rfl
  | cons line lines ih => rw [List.foldl_cons, List.foldl_cons, ih, get_applyLine]

/-- The lines that are not of a key. -/
def others (key : Bytes) (lines : List Bytes) : List Bytes :=
  lines.filter fun line => (parseLine line).map Prod.fst ≠ some key

theorem given_of_key {j : Setting} {key line : Bytes} (hj : j.key ≠ key)
    (h : (parseLine line).map Prod.fst = some key) : j.given line = none := by
  obtain ⟨⟨key', val⟩, hparse, rfl⟩ := Option.map_eq_some_iff.mp h
  rw [Setting.given, hparse]
  exact if_neg (Ne.symm hj)

/-- Lines of a key do nothing to the settings of others. -/
theorem get_foldl_others {j : Setting} {key : Bytes} (hj : j.key ≠ key) (s : PersistentSettings)
    (lines : List Bytes) :
    j.get (lines.foldl applyLine s) = j.get ((others key lines).foldl applyLine s) := by
  rw [get_foldl, get_foldl]
  generalize j.get s = v
  induction lines generalizing v with
  | nil => rfl
  | cons line lines ih =>
    rw [List.foldl_cons, ih]
    by_cases hkey : (parseLine line).map Prod.fst = some key
    · have hdrop : others key (line :: lines) = others key lines :=
        List.filter_cons_of_neg (by simpa using hkey)
      rw [hdrop, given_of_key hj hkey, Option.getD_none]
    · have hkeep : others key (line :: lines) = line :: others key lines :=
        List.filter_cons_of_pos (by simpa using hkey)
      rw [hkeep, List.foldl_cons]

/-! ### Ranges -/

namespace Setting

def Within (lo hi n : Int) : Prop := lo ≤ n ∧ n ≤ hi

/-- The values that a reader takes. -/
def InRange : (k : Setting) → k.Value → Prop
  | receiverName, name => normalizeReceiverName name = name
  | mirrorWidth, n => Within 320 7680 n
  | mirrorHeight, n => Within 240 4320 n
  | maxFps, n | refreshRate, n => Within 1 60 n
  | videoRotation, n => Within (-1) 3 n
  | windowX, n | windowY, n => Within (-100000) 100000 n
  | windowWidth, n | windowHeight, n => Within 160 32768 n
  | recordingCodec, n => Within 0 1 n
  | recordingEncoder, n => Within 0 2 n
  | recordingBitrate, n => Within 2 40 n
  | hevcEnabled, _ | mirrorHwaccel, _ | vsyncEnabled, _ | fullscreen, _ | chromeless, _
  | diagnostics, _ | windowPlacementValid, _ | windowMaximized, _ | recordingDirectory, _ => True

/-- A setting is at its default or in range. -/
def Sound (k : Setting) (s : PersistentSettings) : Prop :=
  k.get s = k.get {} ∨ k.InRange (k.get s)

end Setting

theorem within_of_ranged {lo hi n : Int} {val : Bytes} (h : ranged lo hi val = some n) :
    Setting.Within lo hi n := by
  have hrange : lo ≤ n ∧ n ≤ hi := of_decide_eq_true (Option.filter_eq_some_iff.mp h).2
  exact hrange

theorem normalized_of_accepted {val name : Bytes}
    (h : Setting.accepted .receiverName val = some name) : normalizeReceiverName name = name := by
  rw [Setting.accepted] at h
  split at h
  · obtain rfl := Option.some.inj h
    exact normalizeReceiverName_twice val
  · exact absurd h (Option.some_ne_none _).symm

theorem inRange_of_accepted {k : Setting} {val : Bytes} {v : k.Value}
    (h : k.accepted val = some v) : k.InRange v := by
  cases k <;> first
    | exact within_of_ranged h
    | exact normalized_of_accepted h
    | trivial

/-- Whatever lines are read, a setting is at its default or in range. -/
theorem sound_foldl (k : Setting) (lines : List Bytes) : k.Sound (lines.foldl applyLine {}) := by
  rw [Setting.Sound, get_foldl]
  have hloop : ∀ v : k.Value, v = k.get {} ∨ k.InRange v →
      lines.foldl (fun v line => (k.given line).getD v) v = k.get {} ∨
        k.InRange (lines.foldl (fun v line => (k.given line).getD v) v) := by
    induction lines with
    | nil => exact fun v hv => hv
    | cons line lines ih =>
      intro v hv
      rw [List.foldl_cons]
      refine ih _ ?_
      cases hgiven : k.given line with
      | none => exact hv
      | some v' =>
        obtain ⟨entry, -, hentry⟩ := Option.bind_eq_some_iff.mp hgiven
        split at hentry
        · exact .inr (inRange_of_accepted hentry)
        · exact absurd hentry (Option.some_ne_none _).symm
  exact hloop _ (.inl rfl)

/-! ### A writer's lines -/

namespace Setting

def text : Setting → PersistentSettings → Bytes
  | receiverName, s => s.receiverName
  | mirrorWidth, s => signed s.mirrorWidth
  | mirrorHeight, s => signed s.mirrorHeight
  | hevcEnabled, s => shownFlag s.hevcEnabled
  | maxFps, s => signed s.maxFps
  | refreshRate, s => signed s.refreshRate
  | mirrorHwaccel, s => shownFlag s.mirrorHwaccel
  | vsyncEnabled, s => shownFlag s.vsyncEnabled
  | fullscreen, s => shownFlag s.fullscreen
  | chromeless, s => shownFlag s.chromeless
  | videoRotation, s => signed s.videoRotation
  | diagnostics, s => shownFlag s.ui.diagnostics
  | windowPlacementValid, s => shownFlag s.ui.windowPlacementValid
  | windowMaximized, s => shownFlag s.ui.windowMaximized
  | windowX, s => signed s.ui.windowX
  | windowY, s => signed s.ui.windowY
  | windowWidth, s => signed s.ui.windowWidth
  | windowHeight, s => signed s.ui.windowHeight
  | recordingDirectory, s => s.ui.recordingDirectory
  | recordingCodec, s => signed s.ui.recordingCodec
  | recordingEncoder, s => signed s.ui.recordingEncoder
  | recordingBitrate, s => signed s.ui.recordingBitrate

/-- In the order of a file. -/
def written : List Setting :=
  [receiverName, mirrorWidth, mirrorHeight, hevcEnabled, maxFps, refreshRate, mirrorHwaccel,
    vsyncEnabled, fullscreen, chromeless, videoRotation, diagnostics, windowPlacementValid,
    windowX, windowY, windowWidth, windowHeight, windowMaximized, recordingDirectory,
    recordingCodec, recordingEncoder, recordingBitrate]

def line (s : PersistentSettings) (k : Setting) : Bytes := k.key ++ 61 :: k.text s

theorem mem_written (k : Setting) : k ∈ written := by
  cases k <;> decide

end Setting

/-- A writer's lines are a reader's: key, equals sign and value. -/
theorem settingsLines_eq (s : PersistentSettings) :
    settingsLines s = Setting.written.map fun k => (k.key ++ [61], k.text s) := by
  have hliterals : (settingsLines s).map Prod.fst = Setting.written.map fun k => k.key ++ [61] := by
    rw [settingsLines]
    simp only [List.map_cons, List.map_nil]
    decide +kernel
  have hvalues : (settingsLines s).map Prod.snd = Setting.written.map fun k => k.text s := rfl
  rw [List.zip_of_prod hliterals hvalues, List.zip_map']

theorem settingsText_eq (s : PersistentSettings) :
    settingsText s = (Setting.written.map (Setting.line s)).flatMap (· ++ [10]) := by
  rw [settingsText, settingsLines_eq, List.flatMap_map, List.flatMap_map]
  simp only [Setting.line, List.append_assoc, List.singleton_append]

/-- Lines of their own are read one by one. -/
theorem getlines_flatMap {ls : List Bytes} (h : ∀ l ∈ ls, 10 ∉ l) :
    getlines (ls.flatMap (· ++ [10])) = ls := by
  induction ls with
  | nil => rfl
  | cons l ls ih =>
    obtain ⟨hl, hls⟩ := List.forall_mem_cons.mp h
    rw [List.flatMap_cons, List.append_assoc, List.singleton_append, getlines, lines_line hl,
      List.map_cons, ← getlines, ih hls]

/-- A text without carriage returns and Ctrl-Z comes through the platform's streams. -/
theorem decode_encode (platform : Platform) {text : Bytes} (hreturn : 13 ∉ text)
    (hend : 26 ∉ text) : platform.decode (platform.encode text) = text := by
  cases platform with
  | posix => rfl
  | windows =>
    induction text with
    | nil => rfl
    | cons b text ih =>
      rw [List.mem_cons, not_or] at hreturn hend
      have htext := ih hreturn.2 hend.2
      rw [Platform.decode] at htext ⊢
      by_cases hb : b = 10
      · subst hb
        have hcrlf : Platform.encode .windows (10 :: text) =
            13 :: 10 :: Platform.encode .windows text := rfl
        rw [hcrlf, Platform.decode.decodeWindows, htext]
      · have hbyte : Platform.encode .windows (b :: text) = b :: Platform.encode .windows text := by
          rw [Platform.encode, List.flatMap_cons, if_neg hb]
          rfl
        rw [hbyte, Platform.decode.decodeWindows.eq_4, htext]
        · exact fun h => hend.1 h.symm
        · exact fun _ h => absurd h.symm hreturn.1

/-! ### Round trips -/

/-- A control character of ASCII. -/
def Control (b : UInt8) : Prop := b < 32 ∨ b = 127

/-- What a file can keep: a name that is taken as it is, numbers in range, and a directory
on one line. -/
structure Storable (s : PersistentSettings) : Prop where
  sound : ∀ k : Setting, k.Sound s
  name : normalizeReceiverName s.receiverName = s.receiverName
  directory : ∀ b ∈ s.ui.recordingDirectory, ¬ Control b

theorem not_control_of_le {b : UInt8} (h : 32 ≤ b) (hb : b ≠ 127) : ¬ Control b := by
  rintro (hlow | hdel)
  · exact absurd h (UInt8.not_le.mpr hlow)
  · exact hb hdel

theorem not_control_signed (n : Int) : ∀ b ∈ signed n, ¬ Control b := by
  have hdigits : ∀ b ∈ decimal n.natAbs, ¬ Control b := by
    intro b hb
    obtain ⟨hlow, hhigh⟩ := isDigit_iff.mp (decimal_digits _ b hb)
    refine not_control_of_le (UInt8.le_iff_toNat_le.mpr (Nat.le_trans (by decide) hlow)) ?_
    rintro rfl
    exact absurd hhigh (by decide)
  intro b hb
  rw [signed] at hb
  split at hb
  · rcases List.mem_cons.mp hb with rfl | hb
    · exact not_control_of_le (by decide) (by decide)
    · exact hdigits b hb
  · exact hdigits b hb

theorem not_control_name {name : Bytes} (h : normalizeReceiverName name = name) :
    ∀ b ∈ name, ¬ Control b := by
  rcases normalizeReceiverName_cases name with ⟨hnil, -⟩ | ⟨htrim, hvalid⟩
  · rw [← h, hnil]
    exact fun b hb => absurd hb List.not_mem_nil
  · rw [← h, htrim]
    intro b hb
    obtain ⟨hlow, hdel, -⟩ := hvalid.plain b hb
    exact not_control_of_le hlow hdel

theorem not_control_flag (v : Bool) : ∀ b ∈ shownFlag v, ¬ Control b := by
  cases v <;> exact List.forall_mem_singleton.mpr (not_control_of_le (by decide) (by decide))

namespace Setting

theorem not_control_text {s : PersistentSettings} (h : Storable s) (k : Setting) :
    ∀ b ∈ k.text s, ¬ Control b := by
  cases k <;> first
    | exact not_control_signed _
    | exact not_control_flag _
    | exact not_control_name h.name
    | exact h.directory

/-- A key is a word: there is an equals sign behind it, and no comment begins with it. -/
theorem key_word (k : Setting) :
    (∀ b ∈ k.key, 32 ≤ b ∧ b ≠ 127 ∧ b ≠ 61) ∧ k.key ≠ [] ∧ k.key.head? ≠ some 35 := by
  cases k <;> decide +kernel

theorem not_control_line {s : PersistentSettings} (h : Storable s) (k : Setting) :
    ∀ b ∈ k.line s, ¬ Control b := by
  intro b hb
  rcases List.mem_append.mp hb with hb | hb
  · obtain ⟨hlow, hdel, -⟩ := k.key_word.1 b hb
    exact not_control_of_le hlow hdel
  rcases List.mem_cons.mp hb with rfl | hb
  · exact not_control_of_le (by decide) (by decide)
  · exact not_control_text h k b hb

theorem parseLine_line (k : Setting) (s : PersistentSettings) :
    parseLine (k.line s) = some (k.key, k.text s) := by
  obtain ⟨hword, hne, hcomment⟩ := k.key_word
  have hhead : (k.line s).head? = k.key.head? := by
    rw [line, List.head?_append]
    cases hkey : k.key with
    | nil => exact absurd hkey hne
    | cons b key => rfl
  rw [parseLine, if_neg]
  · exact cut_byte (fun h => (hword 61 h).2.2 rfl) _
  · rintro (hnil | hsome)
    · exact List.append_ne_nil_of_left_ne_nil hne _ hnil
    · exact hcomment (hhead ▸ hsome)

theorem given_line_self (k : Setting) (s : PersistentSettings) :
    k.given (k.line s) = k.accepted (k.text s) := by
  rw [given, parseLine_line]
  exact if_pos rfl

theorem given_line_ne {j k : Setting} (h : j ≠ k) (s : PersistentSettings) :
    j.given (k.line s) = none := by
  rw [given, parseLine_line]
  exact if_neg fun hkey => h (key_injective hkey.symm)

/-- The lines of settings, each once, give each its own value. -/
theorem get_foldl_lines (s : PersistentSettings) {ks : List Setting} (hks : ks.Nodup)
    (t : PersistentSettings) (j : Setting) :
    j.get ((ks.map (line s)).foldl applyLine t) =
      if j ∈ ks then (j.accepted (j.text s)).getD (j.get t) else j.get t := by
  induction ks generalizing t with
  | nil => rfl
  | cons k ks ih =>
    obtain ⟨hk, hks⟩ := List.nodup_cons.mp hks
    rw [List.map_cons, List.foldl_cons, ih hks, get_applyLine]
    by_cases hj : j = k
    · subst hj
      rw [given_line_self, if_neg hk, if_pos List.mem_cons_self]
    · rw [given_line_ne hj, Option.getD_none]
      simp only [List.mem_cons, hj, false_or]

end Setting

theorem stoi_signed {n : Int} (hlo : -2 ^ 31 ≤ n) (hhi : n < 2 ^ 31) :
    stoi (signed n) = some n := by
  rw [stoi, number_signed, Option.filter_some, if_pos (decide_eq_true ⟨hlo, hhi⟩)]

/-- A number at its default or in range is restored. -/
theorem ranged_signed {lo hi d n : Int} (hlo : -2 ^ 31 ≤ lo) (hhi : hi < 2 ^ 31)
    (h : n = d ∨ Setting.Within lo hi n) : (ranged lo hi (signed n)).getD d = n := by
  by_cases hrange : Setting.Within lo hi n
  · have hwithin : lo ≤ n ∧ n ≤ hi := hrange
    rw [ranged, stoi_signed (Int.le_trans hlo hrange.1) (Int.lt_of_le_of_lt hrange.2 hhi),
      Option.filter_some, if_pos (decide_eq_true hwithin)]
    rfl
  · obtain rfl := h.resolve_right hrange
    cases hranged : ranged lo hi (signed n) with
    | none => rfl
    | some m =>
      obtain ⟨hstoi, hm⟩ := Option.filter_eq_some_iff.mp hranged
      have hnumber := (Option.filter_eq_some_iff.mp hstoi).1
      rw [number_signed] at hnumber
      exact (Option.some.inj hnumber).symm

theorem flag_shownFlag (v : Bool) : flag (shownFlag v) = some v := by
  cases v <;> rfl

theorem restored {s : PersistentSettings} (h : Storable s) (hname : s.receiverName ≠ [])
    (k : Setting) : (k.accepted (k.text s)).getD (k.get {}) = k.get s := by
  have hflag : ∀ d v : Bool, (flag (shownFlag v)).getD d = v := by
    intro d v
    rw [flag_shownFlag, Option.getD_some]
  have hreceiver : (Setting.accepted .receiverName s.receiverName).getD
      (Setting.get .receiverName {}) = s.receiverName := by
    rw [Setting.accepted, h.name, if_pos hname]
    rfl
  have hsound := h.sound k
  cases k <;> first
    | exact hreceiver
    | exact ranged_signed (by decide) (by decide) hsound
    | exact hflag _ _
    | rfl

/-- What is written is read. -/
theorem foldl_settingsText {s : PersistentSettings} (h : Storable s) (hname : s.receiverName ≠ [])
    (platform : Platform) :
    (getlines (platform.decode (platform.encode (settingsText s)))).foldl applyLine {} = s := by
  have hlines : ∀ c, Control c → ∀ l ∈ Setting.written.map (Setting.line s), c ∉ l := by
    intro c hc l hl hcl
    obtain ⟨k, -, rfl⟩ := List.mem_map.mp hl
    exact k.not_control_line h c hcl hc
  have htext : ∀ c, Control c → c ≠ 10 → c ∉ settingsText s := by
    intro c hc hne hmem
    rw [settingsText_eq] at hmem
    obtain ⟨l, hl, hmem⟩ := List.mem_flatMap.mp hmem
    rcases List.mem_append.mp hmem with hmem | hmem
    · exact hlines c hc l hl hmem
    · exact hne (List.mem_singleton.mp hmem)
  rw [decode_encode platform (htext 13 (.inl (by decide)) (by decide))
    (htext 26 (.inl (by decide)) (by decide)), settingsText_eq,
    getlines_flatMap (hlines 10 (.inl (by decide)))]
  apply Setting.ext
  intro k
  rw [Setting.get_foldl_lines s (by decide), if_pos k.mem_written]
  exact restored h hname k

/-! ### Files -/

section Files
variable {platform : Platform} {s : PersistentSettings} {path : Bytes} {o : Outcome}
  {disk disk' : Disk}

theorem of_saved (h : saveSettings platform s path o disk = (true, disk')) :
    path ≠ [] ∧ disk' path = some (platform.encode (settingsText s)) := by
  rw [saveSettings] at h
  split at h
  · exact absurd (Prod.mk.inj h).1 Bool.false_ne_true
  rename_i hpath
  split at h
  · exact absurd (Prod.mk.inj h).1 Bool.false_ne_true
  simp only at h
  split at h
  · exact absurd (Prod.mk.inj h).1 Bool.false_ne_true
  split at h
  · exact absurd (Prod.mk.inj h).1 Bool.false_ne_true
  split at h
  · exact absurd (Prod.mk.inj h).1 Bool.false_ne_true
  · refine ⟨hpath, ?_⟩
    rw [← (Prod.mk.inj h).2, Function.update_self]

/-- A writer that fails leaves the old file. -/
theorem of_not_saved (h : saveSettings platform s path o disk = (false, disk')) :
    disk' path = disk path := by
  have hne : path ≠ path ++ bytes ".tmp" := by
    intro heq
    have hlength := congrArg List.length heq
    rw [List.length_append] at hlength
    exact absurd hlength (Nat.ne_of_lt (Nat.lt_add_of_pos_right (by decide)))
  have hbeside : ∀ content : Option Bytes,
      Function.update disk (path ++ bytes ".tmp") content path = disk path := fun content =>
    Function.update_of_ne hne content disk
  rw [saveSettings] at h
  split at h
  · rw [← (Prod.mk.inj h).2]
  split at h
  · rw [← (Prod.mk.inj h).2]
  simp only at h
  split at h
  · rw [← (Prod.mk.inj h).2]
  split at h
  · rw [← (Prod.mk.inj h).2, hbeside]
  split at h
  · rw [← (Prod.mk.inj h).2, hbeside]
  · exact absurd (Prod.mk.inj h).1.symm Bool.false_ne_true

theorem loadSettings_eq {content : Bytes} (hpath : path ≠ []) (h : disk path = some content) :
    loadSettings platform path disk = (getlines (platform.decode content)).foldl applyLine {} := by
  rw [loadSettings, if_neg hpath, h]

theorem sound_load (platform : Platform) (path : Bytes) (disk : Disk) (k : Setting) :
    k.Sound (loadSettings platform path disk) := by
  rw [loadSettings]
  split
  · exact .inl rfl
  split
  · exact .inl rfl
  · exact sound_foldl k _

end Files

/-- A file keeps the settings with a name; whatever it holds, each setting that is read is
at its default or in range, and what its lines of one key hold is nothing to the settings of
other keys. -/
theorem settings_kept (platform : Platform) :
    (∀ s path o disk disk', Storable s → s.receiverName ≠ [] →
      saveSettings platform s path o disk = (true, disk') →
        loadSettings platform path disk' = s) ∧
    (∀ path disk, ∀ k : Setting, k.Sound (loadSettings platform path disk)) ∧
    ∀ path disk disk' content content' key, disk path = some content →
      disk' path = some content' →
        others key (getlines (platform.decode content)) =
          others key (getlines (platform.decode content')) →
            ∀ k : Setting, k.key ≠ key →
              k.get (loadSettings platform path disk) =
                k.get (loadSettings platform path disk') := by
  refine ⟨?_, fun path disk k => sound_load platform path disk k, ?_⟩
  · intro s path o disk disk' h hname hsaved
    obtain ⟨hpath, hcontent⟩ := of_saved hsaved
    rw [loadSettings_eq hpath hcontent]
    exact foldl_settingsText h hname platform
  · intro path disk disk' content content' key hcontent hcontent' hothers k hk
    by_cases hpath : path = []
    · rw [loadSettings, loadSettings, if_pos hpath, if_pos hpath]
    · rw [loadSettings_eq hpath hcontent, loadSettings_eq hpath hcontent',
        get_foldl_others hk {} (getlines (platform.decode content)), hothers,
        ← get_foldl_others hk]

/-- An empty name is taken as it is, and is the default when it is read. -/
theorem empty_name_lost :
    Storable {receiverName := []} ∧ ∃ disk,
      saveSettings .posix {receiverName := []} (bytes "config/settings.ini") {} (fun _ => none) =
        (true, disk) ∧
      loadSettings .posix (bytes "config/settings.ini") disk ≠ {receiverName := []} := by
  refine ⟨⟨fun k => ?_, rfl, fun b hb => absurd hb List.not_mem_nil⟩, _, rfl, ?_⟩
  · cases k <;> first
      | exact .inl rfl
      | exact .inr rfl
  · intro h
    have hname := congrArg PersistentSettings.receiverName h
    revert hname
    decide +kernel

end AirPlay.Settings
