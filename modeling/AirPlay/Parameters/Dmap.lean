import AirPlay.Parameters.Daap

/-! What the walk over DMAP records finds.

Of a tree of records the leaves count that are not too deep, in the order of the text, and
a text that is cut counts as far as its whole records go. -/
namespace AirPlay.Parameters
open Bytes

/-! ### Trees -/

/-- The tags whose records hold records. -/
inductive Container
  | mlit | mcon | mlcl

def Container.tag : Container → Bytes
  | .mlit => bytes "mlit"
  | .mcon => bytes "mcon"
  | .mlcl => bytes "mlcl"

/-- A record that holds data. -/
structure Leaf where
  tag : Bytes
  data : Bytes
  tag_length : tag.length = 4
  plain : isContainer tag = false

/-- Records one after the other. -/
inductive Forest
  | nil
  | leaf (l : Leaf) (rest : Forest)
  | container (c : Container) (children rest : Forest)

def record (tag data : Bytes) : Bytes := tag ++ (toBe 4 data.length ++ data)

namespace Forest

def encode : Forest → Bytes
  | nil => []
  | leaf l rest => record l.tag l.data ++ encode rest
  | container c children rest => record c.tag (encode children) ++ encode rest

/-- The leaves in the order of the text, each with the number of containers around it. -/
def leaves : Forest → List (Nat × Leaf)
  | nil => []
  | leaf l rest => (0, l) :: leaves rest
  | container _ children rest =>
    ((leaves children).map fun p => (p.1 + 1, p.2)) ++ leaves rest

/-- The leaves with fewer than `levels` containers around them. -/
def visible (levels : Nat) (f : Forest) : List Leaf :=
  (f.leaves.filter fun p => p.1 < levels).map Prod.snd

/-- The records at the top that end within the first `n` bytes. -/
def before : Nat → Forest → Forest
  | _, nil => nil
  | n, leaf l rest =>
    if 8 + l.data.length ≤ n then leaf l (before (n - (8 + l.data.length)) rest) else nil
  | n, container c children rest =>
    if 8 + (encode children).length ≤ n then
      container c children (before (n - (8 + (encode children).length)) rest)
    else nil

end Forest

/-- The data of the last leaf with a tag. -/
def lastText (tag : Bytes) (ls : List Leaf) : Bytes :=
  (((ls.filter fun l => l.tag = tag).getLast?).map (·.data)).getD []

/-- The number in the last `astm` of four bytes. -/
def lastDuration (ls : List Leaf) : UInt32 :=
  (((ls.filter fun l => l.tag = bytes "astm" ∧ l.data.length = 4).getLast?).map fun l =>
    UInt32.ofNat (ofBe l.data)).getD 0

/-- What leaves say. -/
def metadata (ls : List Leaf) : DaapMetadata where
  title := lastText (bytes "minm") ls
  artist := lastText (bytes "asar") ls
  album := lastText (bytes "asal") ls
  durationMs := lastDuration ls

theorem lastText_concat (tag : Bytes) (ls : List Leaf) (l : Leaf) :
    lastText tag (ls ++ [l]) = if l.tag = tag then l.data else lastText tag ls := by
  rw [lastText, lastText, List.filter_append]
  by_cases h : l.tag = tag
  · simp [h]
  · simp [h]

theorem lastDuration_concat (ls : List Leaf) (l : Leaf) :
    lastDuration (ls ++ [l]) =
      if l.tag = bytes "astm" ∧ l.data.length = 4 then UInt32.ofNat (ofBe l.data)
      else lastDuration ls := by
  rw [lastDuration, lastDuration, List.filter_append]
  by_cases h : l.tag = bytes "astm" ∧ l.data.length = 4
  · simp [h]
  · simp [h]

/-- Leaf by leaf, the last of each tag is kept. -/
theorem foldl_keep (ls : List Leaf) :
    ls.foldl (fun out l => keep l.tag l.data out) {} = metadata ls := by
  induction ls using List.reverseRecOn with
  | nil => rfl
  | append_singleton ls l ih =>
    have hdistinct : bytes "minm" ≠ bytes "asar" ∧ bytes "minm" ≠ bytes "asal" ∧
        bytes "minm" ≠ bytes "astm" ∧ bytes "asar" ≠ bytes "asal" ∧
        bytes "asar" ≠ bytes "astm" ∧ bytes "asal" ≠ bytes "astm" := by decide
    obtain ⟨h₁, h₂, h₃, h₄, h₅, h₆⟩ := hdistinct
    rw [List.foldl_append, ih, List.foldl_cons, List.foldl_nil, keep]
    simp only [metadata, lastText_concat, lastDuration_concat]
    by_cases htitle : l.tag = bytes "minm"
    · simp [htitle, h₁, h₂, h₃]
    by_cases hartist : l.tag = bytes "asar"
    · simp [hartist, h₁.symm, h₄, h₅]
    by_cases halbum : l.tag = bytes "asal"
    · simp [halbum, h₂.symm, h₄.symm, h₆]
    by_cases hduration : l.tag = bytes "astm" ∧ l.data.length = 4
    · simp [hduration, h₃.symm, h₅.symm, h₆.symm]
    · simp [htitle, hartist, halbum, hduration]

theorem Container.isContainer_tag (c : Container) :
    c.tag.length = 4 ∧ isContainer c.tag = true := by
  cases c <;> decide

theorem length_record {tag data : Bytes} (htag : tag.length = 4) :
    (record tag data).length = 8 + data.length := by
  rw [record, List.length_append, List.length_append, htag, length_toBe, ← Nat.add_assoc]

theorem entry_record {tag data : Bytes} (htag : tag.length = 4) (hdata : data.length < 2 ^ 32)
    (rest : Bytes) : entry (record tag data ++ rest) = some (tag, data) := by
  have hlength := @length_record tag data htag
  have hword : ((record tag data ++ rest).drop 4).take 4 = toBe 4 data.length := by
    rw [record, List.append_assoc, List.drop_left' htag, List.append_assoc,
      List.take_left' (length_toBe 4 _)]
  have hrest : (record tag data ++ rest).drop 8 = data ++ rest := by
    rw [record, show 8 = 4 + 4 from rfl, ← List.drop_drop, List.append_assoc, List.drop_left' htag,
      List.append_assoc, List.drop_left' (length_toBe 4 _)]
  have htake : (record tag data ++ rest).take 4 = tag := by
    rw [record, List.append_assoc, List.take_left' htag]
  rw [entry, hword, ofBe_toBe (by omega), hrest, htake, List.take_left, List.length_append, hlength,
    if_neg (by omega), if_neg (by omega)]

theorem drop_record {tag data : Bytes} (htag : tag.length = 4) (hsize : 8 + data.length < 2 ^ 32)
    (rest : Bytes) : (record tag data ++ rest).drop (advance data) = rest := by
  rw [advance, Nat.mod_eq_of_lt hsize, ← length_record htag, List.drop_left]

/-- A record that is cut off is not read. -/
theorem entry_cut {tag data : Bytes} (htag : tag.length = 4) (hdata : data.length < 2 ^ 32)
    {n : Nat} (hn : n < 8 + data.length) (rest : Bytes) :
    entry ((record tag data ++ rest).take n) = none := by
  have hle : ((record tag data ++ rest).take n).length ≤ n := List.length_take_le _ _
  rw [entry]
  split
  · rfl
  rename_i hlong
  have hword : (((record tag data ++ rest).take n).drop 4).take 4 = toBe 4 data.length := by
    rw [List.drop_take, List.take_take, Nat.min_eq_left (by omega), record, List.append_assoc,
      List.drop_left' htag, List.append_assoc, List.take_left' (length_toBe 4 _)]
  rw [hword, ofBe_toBe (by omega), if_pos (by omega)]

theorem take_record {tag data : Bytes} (htag : tag.length = 4) {n : Nat}
    (hn : 8 + data.length ≤ n) (rest : Bytes) :
    (record tag data ++ rest).take n = record tag data ++ rest.take (n - (8 + data.length)) := by
  rw [List.take_append, length_record htag, List.take_of_length_le (by rwa [length_record htag])]

namespace Forest

theorem visible_zero (f : Forest) : f.visible 0 = [] := by
  rw [visible, List.filter_eq_nil_iff.mpr (by simp), List.map_nil]

theorem visible_leaf (levels : Nat) (l : Leaf) (rest : Forest) :
    (leaf l rest).visible (levels + 1) = l :: rest.visible (levels + 1) := by
  rw [visible, leaves, List.filter_cons_of_pos (by simp), List.map_cons, visible]

theorem visible_container (levels : Nat) (c : Container) (children rest : Forest) :
    (container c children rest).visible (levels + 1) =
      children.visible levels ++ rest.visible (levels + 1) := by
  have hinside : ((children.leaves.map fun p => (p.1 + 1, p.2)).filter fun p => p.1 < levels + 1) =
      (children.leaves.filter fun p => p.1 < levels).map fun p => (p.1 + 1, p.2) := by
    rw [List.filter_map]
    simp only [Function.comp_def, Nat.add_lt_add_iff_right]
  rw [visible, leaves, List.filter_append, hinside, List.map_append, List.map_map, visible, visible]
  rfl

/-- The walk over records that fit in 32 bits keeps what their leaves say. -/
theorem walkText_encode (f : Forest) {fuel : Nat} (levels : Nat) {tail : Bytes}
    (htail : entry tail = none) (hsize : (f.encode ++ tail).length < 2 ^ 32)
    (hfuel : (f.encode ++ tail).length < fuel) (out : DaapMetadata) :
    walkText fuel levels (f.encode ++ tail) out =
      some ((f.visible levels).foldl (fun out l => keep l.tag l.data out) out) := by
  obtain ⟨fuel, rfl⟩ := Nat.exists_eq_succ_of_ne_zero (Nat.ne_zero_of_lt hfuel)
  cases levels with
  | zero => rw [walkText, visible_zero, List.foldl_nil]
  | succ levels =>
    induction f generalizing fuel levels tail out with
    | nil =>
      rw [encode, List.nil_append, walkText, htail]
      rfl
    | leaf l rest ih =>
      rw [encode, List.append_assoc] at hsize hfuel ⊢
      rw [List.length_append, length_record l.tag_length] at hsize hfuel
      obtain ⟨fuel, rfl⟩ := Nat.exists_eq_succ_of_ne_zero (show fuel ≠ 0 by omega)
      rw [walkText, entry_record l.tag_length (by omega)]
      dsimp only
      rw [if_neg (by rw [l.plain]; exact Bool.false_ne_true), Option.bind_some,
        drop_record l.tag_length (by omega), ih htail (by omega) _ fuel (by omega) levels,
        visible_leaf]
      rfl
    | container c children rest ihc ih =>
      obtain ⟨htag, hcontainer⟩ := c.isContainer_tag
      rw [encode, List.append_assoc] at hsize hfuel ⊢
      rw [List.length_append, length_record htag] at hsize hfuel
      obtain ⟨fuel, rfl⟩ := Nat.exists_eq_succ_of_ne_zero (show fuel ≠ 0 by omega)
      have hinside : walkText (fuel + 1) levels children.encode out =
          some ((children.visible levels).foldl (fun out l => keep l.tag l.data out) out) := by
        cases levels with
        | zero => rw [walkText, visible_zero, List.foldl_nil]
        | succ levels =>
          have hchildren := @ihc []
          rw [List.append_nil] at hchildren
          exact hchildren rfl (by omega) out fuel (by omega) levels
      rw [walkText, entry_record htag (by omega)]
      dsimp only
      rw [if_pos hcontainer, hinside, Option.bind_some, drop_record htag (by omega),
        ih htail (by omega) _ fuel (by omega) levels, visible_container, List.foldl_append]

/-- What is left of an encoding that is cut: whole records, and a piece that is not read. -/
theorem take_encode (f : Forest) (hsize : f.encode.length < 2 ^ 32) (n : Nat) :
    ∃ tail, f.encode.take n = (f.before n).encode ++ tail ∧ entry tail = none := by
  induction f generalizing n with
  | nil => exact ⟨[], by rw [before, encode, List.take_nil, List.append_nil], rfl⟩
  | leaf l rest ih =>
    rw [encode, List.length_append, length_record l.tag_length] at hsize
    rw [encode, before]
    split
    · rename_i hn
      obtain ⟨tail, htake, htail⟩ := ih (by omega) (n - (8 + l.data.length))
      exact ⟨tail, by rw [take_record l.tag_length hn, htake, encode, List.append_assoc], htail⟩
    · exact ⟨_, rfl, entry_cut l.tag_length (by omega) (by omega) _⟩
  | container c children rest ihc ih =>
    have htag := c.isContainer_tag.1
    rw [encode, List.length_append, length_record htag] at hsize
    rw [encode, before]
    split
    · rename_i hn
      obtain ⟨tail, htake, htail⟩ := ih (by omega) (n - (8 + children.encode.length))
      exact ⟨tail, by rw [take_record htag hn, htake, encode, List.append_assoc], htail⟩
    · exact ⟨_, rfl, entry_cut htag (by omega) (by omega) _⟩

end Forest

/-! ### Any body -/

/-- The walk over a text comes to another text, at whose head it reads a record. -/
inductive Visits : Nat → Bytes → Bytes → Prop
  | here {levels : Nat} {s : Bytes} : Visits (levels + 1) s s
  | next {levels : Nat} {s t tag data : Bytes} (h : entry s = some (tag, data))
      (hv : Visits (levels + 1) (s.drop (advance data)) t) : Visits (levels + 1) s t
  | inside {levels : Nat} {s t tag data : Bytes} (h : entry s = some (tag, data))
      (hcontainer : isContainer tag = true) (hv : Visits levels data t) : Visits (levels + 1) s t

/-- A record whose size is 0 in 32 bits. -/
def Endless (t : Bytes) : Prop := ∃ tag data, entry t = some (tag, data) ∧ data.length = 2 ^ 32 - 8

theorem walkText_ends {fuel levels : Nat} {s : Bytes}
    (h : ∀ t, Visits levels s t → ¬ Endless t) (hfuel : s.length < fuel) (out : DaapMetadata) :
    ∃ out', walkText fuel levels s out = some out' := by
  induction fuel generalizing levels s out with
  | zero => exact absurd hfuel (Nat.not_lt_zero _)
  | succ fuel ih =>
    cases levels with
    | zero => exact ⟨out, rfl⟩
    | succ levels =>
      rw [walkText]
      cases hentry : entry s with
      | none => exact ⟨out, rfl⟩
      | some e =>
        obtain ⟨tag, data⟩ := e
        have hopens := entry_some hentry
        have hlt := hopens.length_lt
        have hle := hopens.length_le
        have hmoves : 0 < advance data := by
          have hne : data.length ≠ 2 ^ 32 - 8 := fun hlength =>
            h s .here ⟨tag, data, hentry, hlength⟩
          rw [advance]
          omega
        obtain ⟨mid, hmid⟩ : ∃ mid, (if isContainer tag = true then walkText fuel levels data out
            else some (keep tag data out)) = some mid := by
          split
          · rename_i hcontainer
            exact ih (fun t ht => h t (.inside hentry hcontainer ht)) (by omega) out
          · exact ⟨_, rfl⟩
        dsimp only
        rw [hmid, Option.bind_some]
        refine ih (fun t ht => h t (.next hentry ht)) ?_ mid
        rw [List.length_drop]
        omega

/-- Once it has come to a record whose size is 0, the walk does not get past it. -/
theorem walkText_endless {levels : Nat} {s t : Bytes} (h : Visits levels s t) (ht : Endless t)
    (fuel : Nat) (out : DaapMetadata) : walkText fuel levels s out = none := by
  induction h generalizing fuel out with
  | @here levels s =>
    obtain ⟨tag, data, hentry, hlength⟩ := ht
    have hstays : s.drop (advance data) = s := by
      rw [advance, hlength]
      rfl
    induction fuel generalizing out with
    | zero => rfl
    | succ fuel ih =>
      rw [walkText, hentry]
      dsimp only
      rw [hstays]
      cases (if isContainer tag = true then walkText fuel levels data out
        else some (keep tag data out)) with
      | none => rfl
      | some mid => exact ih mid
  | @next levels s t tag data hentry hv ih =>
    cases fuel with
    | zero => rfl
    | succ fuel =>
      rw [walkText, hentry]
      dsimp only
      cases (if isContainer tag = true then walkText fuel levels data out
        else some (keep tag data out)) with
      | none => rfl
      | some mid => exact ih ht fuel mid
  | @inside levels s t tag data hentry hcontainer hv ih =>
    cases fuel with
    | zero => rfl
    | succ fuel =>
      rw [walkText, hentry]
      dsimp only
      rw [if_pos hcontainer, ih ht fuel out, Option.bind_none]

theorem visits_length {levels : Nat} {s t : Bytes} (h : Visits levels s t) :
    t.length ≤ s.length := by
  induction h with
  | here => exact le_rfl
  | next hentry hv ih => exact ih.trans (by rw [List.length_drop]; exact Nat.sub_le _ _)
  | inside hentry hcontainer hv ih =>
    have hle := (entry_some hentry).length_le
    omega

theorem parseDaapMlit_eq (fuel : Nat) (body : Bytes) :
    parseDaapMlit fuel body =
      if body.length < 8 then .ok (false, {})
      else finished ((walkText fuel 5 body {}).map fun out => (out.found, out)) := by
  rw [parseDaapMlit, walkChildren_eq fuel (Nat.zero_le 5) (Nat.zero_add _).le (Nat.zero_le _)]
  rw [Nat.zero_add, List.drop_zero, Nat.sub_zero, Nat.sub_zero, List.take_length]
  cases walkText fuel 5 body {} <;> rfl

/-- The walk over a body ends, and is inside it all the time. -/
def Walks (body : Bytes) : Prop :=
  (∀ fuel, parseDaapMlit fuel body ≠ .error .outside) ∧
    ∃ fuel result, parseDaapMlit fuel body = .ok result

theorem parseDaapMlit_ends {fuel : Nat} {body : Bytes}
    (h : ∀ t, Visits 5 body t → ¬ Endless t) (hfuel : body.length < fuel) :
    ∃ out, walkText fuel 5 body {} = some out ∧
      parseDaapMlit fuel body = .ok (out.found, out) := by
  obtain ⟨out, hout⟩ := walkText_ends h hfuel {}
  refine ⟨out, hout, ?_⟩
  rw [parseDaapMlit_eq, hout]
  split
  · rename_i hshort
    obtain ⟨fuel, rfl⟩ := Nat.exists_eq_succ_of_ne_zero (Nat.ne_zero_of_lt hfuel)
    rw [walkText, entry, if_pos hshort] at hout
    rw [← Option.some.inj hout]
    rfl
  · rfl

theorem walks_iff (body : Bytes) : Walks body ↔ ∀ t, Visits 5 body t → ¬ Endless t := by
  constructor
  · rintro ⟨-, fuel, result, hresult⟩ t hvisits hendless
    obtain ⟨tag, data, hentry, hlength⟩ := hendless
    have hlong := (entry_some hentry).length_le.trans (visits_length hvisits)
    rw [parseDaapMlit_eq, if_neg (by omega),
      walkText_endless hvisits ⟨tag, data, hentry, hlength⟩] at hresult
    cases hresult
  · intro h
    refine ⟨fun fuel hout => ?_, body.length + 1, ?_⟩
    · rw [parseDaapMlit_eq] at hout
      split at hout
      · cases hout
      · cases hwalk : (walkText fuel 5 body {}).map fun out => (out.found, out) with
        | none =>
          rw [hwalk] at hout
          cases hout
        | some result =>
          rw [hwalk] at hout
          cases hout
    · obtain ⟨out, -, hparse⟩ := parseDaapMlit_ends h (Nat.lt_succ_self _)
      exact ⟨_, hparse⟩

/-- A body below 4 GiB has no record that the walk does not get past. -/
theorem not_endless {body : Bytes} (hsize : body.length < 2 ^ 32) :
    ∀ t, Visits 5 body t → ¬ Endless t := by
  rintro t hvisits ⟨tag, data, hentry, hlength⟩
  have hlong := (entry_some hentry).length_le.trans (visits_length hvisits)
  omega

theorem parseDaapMlit_encode (f : Forest) {tail : Bytes} (htail : entry tail = none)
    (hsize : (f.encode ++ tail).length < 2 ^ 32) {fuel : Nat}
    (hfuel : (f.encode ++ tail).length < fuel) :
    parseDaapMlit fuel (f.encode ++ tail) =
      .ok ((metadata (f.visible 5)).found, metadata (f.visible 5)) := by
  obtain ⟨out, hout, hparse⟩ := parseDaapMlit_ends (not_endless hsize) hfuel
  rw [f.walkText_encode 5 htail hsize hfuel, foldl_keep] at hout
  rw [hparse, Option.some.inj hout]

/-- Trees below 4 GiB give the last title, artist, album and duration among the leaves under
at most four containers, and a text that is cut what its whole records give; the walk over a
body ends, inside it, exactly when it comes to no record whose size is 0 in 32 bits. -/
theorem walk_exact (body : Bytes) :
    (∀ (f : Forest) (fuel : Nat), body = f.encode → body.length < 2 ^ 32 → body.length < fuel →
      parseDaapMlit fuel body =
        .ok ((metadata (f.visible 5)).found, metadata (f.visible 5))) ∧
      (∀ (f : Forest) (n fuel : Nat), body = f.encode → body.length < 2 ^ 32 →
        body.length < fuel →
        parseDaapMlit fuel (body.take n) = parseDaapMlit fuel (f.before n).encode) ∧
      (body.length < 2 ^ 32 → Walks body) ∧
      (Walks body ↔ ∀ t, Visits 5 body t → ¬ Endless t) := by
  refine ⟨fun f fuel hbody hsize hfuel => ?_, fun f n fuel hbody hsize hfuel => ?_,
    fun hsize => (walks_iff body).mpr (not_endless hsize), walks_iff body⟩
  · subst hbody
    have h := @parseDaapMlit_encode f []
    rw [List.append_nil] at h
    exact h rfl hsize hfuel
  · subst hbody
    obtain ⟨tail, htake, htail⟩ := f.take_encode hsize n
    have hle : ((f.before n).encode ++ tail).length ≤ f.encode.length := by
      rw [← htake]
      exact List.length_take_le' n f.encode
    have hwhole := @parseDaapMlit_encode (f.before n) []
    rw [List.append_nil] at hwhole
    rw [List.length_append] at hle
    rw [htake, parseDaapMlit_encode _ htail (by rw [List.length_append]; omega)
      (by rw [List.length_append]; omega), hwhole rfl (by omega) (by omega)]

/-- One record of 2^32 - 8 bytes. -/
def endlessBody : Bytes := record (bytes "free") (List.replicate (2 ^ 32 - 8) 0)

theorem endless_never_ends :
    ¬ ∃ fuel result, parseDaapMlit fuel endlessBody = .ok result := by
  have hlength : (List.replicate (2 ^ 32 - 8) (0 : UInt8)).length = 2 ^ 32 - 8 :=
    List.length_replicate
  have hentry := @entry_record (bytes "free") (List.replicate (2 ^ 32 - 8) 0) rfl
    (by rw [hlength]; omega) []
  rw [List.append_nil] at hentry
  rintro ⟨fuel, result, hresult⟩
  rw [parseDaapMlit_eq, endlessBody, length_record rfl, hlength, if_neg (by omega),
    walkText_endless .here ⟨_, _, hentry, hlength⟩] at hresult
  cases hresult

end AirPlay.Parameters
