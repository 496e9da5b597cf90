import AirPlay.Video.Config

/-! Configuration records as the mirror gives them.

A record comes as it is, or as the content of a box inside a sample entry. The box is
found by its type, the record's codec by trying the H.264 parser first, which an hvcC
record stops at its reserved flags (`setParameterSets_given`). -/
namespace AirPlay.Video.Decoder
open Bytes

/-- A box: its size, its type and its content. -/
def box (fourcc content : Bytes) : Bytes := toBe 4 (content.length + 8) ++ (fourcc ++ content)

/-- The record as it is, or in a box of a sample entry that has neither type anywhere else
and does not begin like a record. -/
inductive Given (record : Bytes) : Bytes → Prop
  | raw : Given record record
  | boxed {before after fourcc : Bytes} (htype : fourcc ∈ kFourccs)
      (hsize : record.length + 8 < 2 ^ 32)
      (hhead : (before ++ (box fourcc record ++ after)).head? ≠ some 1)
      (honly : ∀ i, ∀ f ∈ kFourccs,
        ((before ++ (box fourcc record ++ after)).drop i).take 4 = f → i = before.length + 4) :
      Given record (before ++ (box fourcc record ++ after))

/-- An hvcC record whose compatibility flags 27 to 31 are zero, with a single filled array
of each kind. -/
structure HvcConfig extends HvcRecord where
  vps : HvcArray
  sps : HvcArray
  pps : HvcArray
  reserved : (header.getD 4 0).toNat % 32 = 0
  vps_only : filled 32 arrays = [vps]
  sps_only : filled 33 arrays = [sps]
  pps_only : filled 34 arrays = [pps]

/-- A configuration record of either codec. -/
inductive ConfigRecord where
  | avc (a : AvcRecord)
  | hvc (r : HvcConfig)

namespace ConfigRecord

def encode : ConfigRecord → Bytes
  | avc a => a.encode
  | hvc r => r.encode

def codec : ConfigRecord → CodecId
  | avc _ => .h264
  | hvc _ => .hevc

/-- The first parameter set of each kind. -/
def sets : ConfigRecord → ParameterSets
  | avc a => {vps := [], sps := firstNal a.sps, pps := firstNal a.pps}
  | hvc r => {vps := firstNal r.vps.nals, sps := firstNal r.sps.nals, pps := firstNal r.pps.nals}

end ConfigRecord

/-! ### The box -/

theorem length_fourcc {fourcc : Bytes} (h : fourcc ∈ kFourccs) : fourcc.length = 4 := by
  rcases List.mem_cons.mp h with rfl | h
  · rfl
  · rw [List.mem_singleton.mp h]
    rfl

/-- A search whose only hit is at `a`. -/
theorem findSome_only {α β : Type} {l : List α} {f : α → Option β} {a : α} (ha : a ∈ l)
    (h : ∀ x ∈ l, f x ≠ none → x = a) : l.findSome? f = f a := by
  induction l with
  | nil => exact absurd ha List.not_mem_nil
  | cons x l ih =>
    obtain ⟨hx, hl⟩ := List.forall_mem_cons.mp h
    rw [List.findSome?_cons]
    cases hfx : f x with
    | some b => rw [← hx (hfx ▸ Option.some_ne_none b), hfx]
    | none =>
      rcases List.mem_cons.mp ha with rfl | ha
      · have hnone : ∀ y ∈ l, f y = none := by
          intro y hy
          by_contra hfy
          rw [hl y hy hfy] at hfy
          exact hfy hfx
        rw [List.findSome?_eq_none_iff.mpr hnone, hfx]
      · exact ih ha hl

section Box
variable {before after fourcc record : Bytes}

theorem innerBox_at (htype : fourcc ∈ kFourccs) (hsize : record.length + 8 < 2 ^ 32)
    (hne : record ≠ []) :
    innerBox (before ++ (box fourcc record ++ after)) fourcc (before.length + 4) = some record := by
  have hfour := length_fourcc htype
  have hpos := List.length_pos_of_ne_nil hne
  have hsplit : toBe 4 (record.length + 8) =
      (toBe 4 (record.length + 8)).take 2 ++ (toBe 4 (record.length + 8)).drop 2 :=
    (List.take_append_drop 2 _).symm
  generalize hhigh : (toBe 4 (record.length + 8)).take 2 = high at hsplit
  generalize hlow : (toBe 4 (record.length + 8)).drop 2 = low at hsplit
  have hhighlen : high.length = 2 := by rw [← hhigh, List.length_take, length_toBe]; rfl
  have hlowlen : low.length = 2 := by rw [← hlow, List.length_drop, length_toBe]
  have hnumber : ofBe high * 65536 + ofBe low = record.length + 8 := by
    have hall := ofBe_append high low
    rw [← hsplit, hlowlen, ofBe_toBe (by omega)] at hall
    exact hall.symm
  generalize hentry : before ++ (box fourcc record ++ after) = entry
  have happ : entry = before ++ (high ++ (low ++ (fourcc ++ (record ++ after)))) := by
    rw [← hentry, box, hsplit]
    simp only [List.append_assoc]
  have hlength : entry.length = before.length + (8 + record.length + after.length) := by
    simp only [happ, List.length_append, hhighlen, hlowlen, hfour]
    omega
  have hu16high : u16 entry (before.length + 4 - 4) = ofBe high := by
    rw [Nat.add_sub_cancel, happ, u16_append, List.take_left' hhighlen]
    rw [List.length_append]
    omega
  have hu16low : u16 entry (before.length + 4 - 2) = ofBe low := by
    have hat : before.length + 4 - 2 = (before ++ high).length := by
      rw [List.length_append, hhighlen]
      rfl
    rw [hat, happ, ← List.append_assoc before high, u16_append, List.take_left' hlowlen]
    rw [List.length_append]
    omega
  have hdrop : entry.drop (before.length + 4) = fourcc ++ (record ++ after) := by
    have hat : before.length + 4 = (before ++ (high ++ low)).length := by
      rw [List.length_append, List.length_append, hhighlen, hlowlen]
    have hto : entry = (before ++ (high ++ low)) ++ (fourcc ++ (record ++ after)) := by
      simp only [happ, List.append_assoc]
    rw [hat, hto, List.drop_left]
  rw [innerBox, hdrop, if_pos (List.take_left' hfour), hu16high, hu16low, hnumber]
  dsimp only
  rw [if_pos (by omega), Nat.add_sub_cancel, ← List.drop_drop, hdrop, List.drop_left' hfour,
    List.take_left]

/-- The scan finds the box. -/
theorem findInnerConfigBox_boxed (htype : fourcc ∈ kFourccs) (hsize : record.length + 8 < 2 ^ 32)
    (hne : record ≠ [])
    (honly : ∀ i, ∀ f ∈ kFourccs,
      ((before ++ (box fourcc record ++ after)).drop i).take 4 = f → i = before.length + 4) :
    findInnerConfigBox (before ++ (box fourcc record ++ after)) = some record := by
  have hbox := @innerBox_at before after fourcc record htype hsize hne
  have hlength : before.length + 4 ∈
      List.range' 4 ((before ++ (box fourcc record ++ after)).length - 7) := by
    have hfour := length_fourcc htype
    have hpos := List.length_pos_of_ne_nil hne
    rw [List.mem_range'_1]
    simp only [box, List.length_append, length_toBe, hfour]
    omega
  generalize before ++ (box fourcc record ++ after) = entry at hbox hlength honly
  have hhit : ∀ f ∈ kFourccs, ∀ i, innerBox entry f i ≠ none →
      i = before.length + 4 ∧ f = fourcc := by
    intro f hf i hi
    have htake : ∀ g j, innerBox entry g j ≠ none → (entry.drop j).take 4 = g := by
      intro g j hj
      by_contra hg
      rw [innerBox, if_neg hg] at hj
      exact hj rfl
    have hat := honly i f hf (htake f i hi)
    refine ⟨hat, ?_⟩
    rw [← htake f i hi, hat]
    exact htake fourcc _ (hbox ▸ Option.some_ne_none record)
  have hscan : (List.range' 4 (entry.length - 7)).findSome? (innerBox entry fourcc) = some record :=
    (findSome_only hlength fun i _ hi => (hhit fourcc htype i hi).1).trans hbox
  rw [findInnerConfigBox, findSome_only htype, hscan]
  intro f hf hscanf
  obtain ⟨i, -, hi⟩ := List.exists_of_findSome?_eq_some (Option.eq_some_of_isSome
    (Option.isSome_iff_ne_none.mpr hscanf))
  exact (hhit f hf i (hi ▸ Option.some_ne_none _)).2

end Box

/-! ### The record -/

theorem encode_head (c : ConfigRecord) : ∃ rest, c.encode = 1 :: rest ∧ 6 ≤ rest.length := by
  cases c with
  | avc a =>
    refine ⟨_, rfl, ?_⟩
    rw [List.length_append, a.profile_length, List.length_cons, List.length_append,
      List.length_cons]
    omega
  | hvc r =>
    refine ⟨_, rfl, ?_⟩
    rw [List.length_append, r.header_length]
    omega

/-- The wrapping goes. -/
theorem unwrap_given {c : ConfigRecord} {blob : Bytes} (h : Given c.encode blob) :
    unwrap blob = some c.encode := by
  obtain ⟨rest, hc, hrest⟩ := encode_head c
  have hone : (c.encode.getD 0 0 != 1) = false := by
    rw [hc]
    rfl
  cases h with
  | raw =>
    rw [unwrap, if_neg (by rw [hc, List.length_cons]; omega), hone]
    dsimp only
    rw [if_neg Bool.false_ne_true, Option.bind_some, hone]
    exact if_neg Bool.false_ne_true
  | @boxed before after fourcc htype hsize hhead honly =>
    have hne : c.encode ≠ [] := hc ▸ List.cons_ne_nil 1 rest
    have hfind := findInnerConfigBox_boxed htype hsize hne honly
    have hlength : ¬ (before ++ (box fourcc c.encode ++ after)).length < 7 := by
      rw [box, hc]
      simp only [List.length_append, length_toBe, length_fourcc htype, List.length_cons]
      omega
    have hother : ((before ++ (box fourcc c.encode ++ after)).getD 0 0 != 1) = true := by
      generalize before ++ (box fourcc c.encode ++ after) = entry at hhead
      rw [bne_iff_ne]
      intro heq
      cases entry with
      | nil => exact absurd heq (by decide)
      | cons b entry => exact hhead (congrArg some heq)
    rw [unwrap, if_neg hlength, hother]
    dsimp only
    rw [if_pos rfl, hfind, Option.bind_some, hone]
    exact if_neg Bool.false_ne_true

/-- The H.264 parser stops at the reserved flags of an hvcC record. -/
theorem parseAvcc_hvc (r : HvcConfig) : parseAvcc r.encode = none := by
  have hlow : (r.encode.getD 5 0 &&& 0x1f).toNat = 0 := by
    have hfive : r.encode.getD 5 0 = r.header.getD 4 0 := by
      have hfour : 4 < r.header.length := by
        rw [r.header_length]
        decide
      rw [HvcRecord.encode, List.getD_cons_succ, List.getD_append _ _ _ _ hfour]
    rw [hfive, toNat_low _ 5 0x1f rfl]
    exact r.reserved
  rw [parseAvcc, hlow]
  simp

theorem configured_record (c : ConfigRecord) {blob : Bytes} (h : unwrap blob = some c.encode) :
    configured blob = some (c.codec, c.sets) := by
  rw [configured, h, Option.bind_some]
  cases c with
  | avc a =>
    have hparse := parseAvcc_encode a []
    rw [List.append_nil] at hparse
    rw [ConfigRecord.encode, hparse]
    rfl
  | hvc r =>
    have hsets : r.sets = (ConfigRecord.hvc r).sets := by
      simp [HvcRecord.sets, ConfigRecord.sets, joined, r.vps_only, r.sps_only, r.pps_only]
    have hcomplete : r.sets.Complete := by
      rw [complete_sets]
      simp [r.vps_only, r.sps_only, r.pps_only]
    have hparse := parseHvcc_encode r.toHvcRecord [] hcomplete
    rw [List.append_nil] at hparse
    rw [ConfigRecord.encode, parseAvcc_hvc, hparse, hsets]
    rfl

/-- A configuration record, however it is given, makes the decoder keep its first
parameter sets and go over to its codec, if the codec opens. -/
theorem setParameterSets_given (s : Impl) (o : OpenOutcome) (c : ConfigRecord) (blob : Bytes)
    (hgiven : Given c.encode blob)
    (hopens : s.codecId ≠ c.codec → o.found = true ∧ o.Opens s.hw) :
    (s.setParameterSetsFromAvcc blob o).1 = true ∧
      (s.setParameterSetsFromAvcc blob o).2.codecId = c.codec ∧
      (s.setParameterSetsFromAvcc blob o).2.sets = c.sets := by
  rw [setParameterSets_eq (configured_record c (unwrap_given hgiven))]
  by_cases hcodec : s.codecId = c.codec
  · rw [if_pos hcodec]
    exact ⟨rfl, hcodec, rfl⟩
  · obtain ⟨hfound, hopens⟩ := hopens hcodec
    obtain ⟨hok, hid, -⟩ := @openCodec_opens c.codec o s hfound hopens
    rw [if_neg hcodec, if_pos hok]
    exact ⟨rfl, hid, rfl⟩

/-- A type is not found behind the end. -/
theorem only_of_lt {entry : Bytes} {n : Nat}
    (h : ∀ i < entry.length, ∀ f ∈ kFourccs, (entry.drop i).take 4 = f → i = n) :
    ∀ i, ∀ f ∈ kFourccs, (entry.drop i).take 4 = f → i = n := by
  intro i f hf htake
  by_cases hi : i < entry.length
  · exact h i hi f hf htake
  · rw [List.drop_of_length_le (not_lt.mp hi), List.take_nil] at htake
    exact absurd (length_fourcc hf) (by rw [← htake]; decide)

theorem setParameterSets_given_boxed :
    Given smallRecord.encode (bytes "\x00\x00\x00\x1davc1\x00" ++
        (box (bytes "avcC") smallRecord.encode ++ [])) ∧
      (Impl.setParameterSetsFromAvcc (bytes "\x00\x00\x00\x1davc1\x00" ++
        (box (bytes "avcC") smallRecord.encode ++ [])) {} {codecId := .hevc}).1 = true := by
  have hgiven : Given smallRecord.encode (bytes "\x00\x00\x00\x1davc1\x00" ++
      (box (bytes "avcC") smallRecord.encode ++ [])) :=
    .boxed (by decide) (by decide) (by decide) (only_of_lt (by decide))
  exact ⟨hgiven, (setParameterSets_given {codecId := .hevc} {} (.avc smallRecord) _ hgiven
    fun _ => ⟨rfl, rfl, .inl rfl⟩).1⟩

end AirPlay.Video.Decoder
