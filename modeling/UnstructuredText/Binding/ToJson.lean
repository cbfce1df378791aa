import UnstructuredText.Binding.Base64
import UnstructuredText.Lib.JsonReads

/-! The JSON form of a data hash. The strings of the hash are copied between quotation
marks as they are, so the text reads back as the hash exactly when neither of them holds a
character that needs an escape; otherwise another hash may be written the same way. -/

namespace UnstructuredText
open Json

def Exclusion.toValue (e : Exclusion) : Value :=
  .obj [("start".toList, .nat e.start), ("length".toList, .nat e.length)]

/-- The value is the object with the members of the hash and no others: the ranges in
order, the two strings as they are, and Base64 forms of the same bytes. -/
def Denotes (v : Value) (d : DataHash) : Prop :=
  ∃ hash pad, Base64.decode hash = some d.hash ∧ Base64.decode pad = some d.pad ∧
    v = .obj ([("exclusions".toList, .arr (d.exclusions.map Exclusion.toValue)),
      ("alg".toList, .str d.alg.toList), ("hash".toList, .str hash), ("pad".toList, .str pad)] ++
      d.name.toList.map fun name => ("name".toList, .str name.toList))

structure Faithful (d : DataHash) : Prop where
  reads : ∃ v, parse d.toJson = some v ∧ Denotes v d
  only : ∀ d' : DataHash, d'.toJson = d.toJson → d' = d

def PlainStrings (d : DataHash) : Prop :=
  Plain d.alg.toList ∧ ∀ name ∈ d.name, Plain name.toList

instance (d : DataHash) : Decidable (PlainStrings d) := inferInstanceAs (Decidable (_ ∧ _))

def quoted (s : Text) : Text := '"' :: (s ++ ['"'])

def exclusionText (e : Exclusion) : Text :=
  '\x7b' :: ([','].intercalate ([("start".toList, e.start), ("length".toList, e.length)].map
    fun b => '"' :: (b.1 ++ '"' :: ':' :: display b.2)) ++ ['\x7d'])

def rangesText (exclusions : List Exclusion) : Text :=
  '[' :: ([','].intercalate (exclusions.map exclusionText) ++ [']'])

/-- A member of the object: its name, the text behind the colon, the value the text stands
for, and the condition for reading that value. -/
structure Member where
  key : Text
  text : Text
  val : Value
  good : Prop

def members (d : DataHash) : List Member :=
  [⟨"exclusions".toList, rangesText d.exclusions, .arr (d.exclusions.map Exclusion.toValue), True⟩,
    ⟨"alg".toList, quoted d.alg.toList, .str d.alg.toList, Plain d.alg.toList⟩,
    ⟨"hash".toList, quoted (base64 d.hash), .str (base64 d.hash), True⟩,
    ⟨"pad".toList, quoted (base64 d.pad), .str (base64 d.pad), True⟩] ++
    d.name.toList.map fun name =>
      ⟨"name".toList, quoted name.toList, .str name.toList, Plain name.toList⟩

theorem exclusionText_eq (e : Exclusion) : exclusionText e =
    "\x7b\"start\":".toList ++ display e.start ++ ",\"length\":".toList ++ display e.length ++
      "\x7d".toList := by
  simp only [exclusionText, List.map_cons, List.map_nil, List.intercalate_cons_cons,
    List.intercalate_singleton, List.append_assoc]
  rfl

theorem toJson_eq (d : DataHash) : d.toJson = '\x7b' :: ([','].intercalate
    ((members d).map fun b => '"' :: (b.key ++ '"' :: ':' :: b.text)) ++ ['\x7d']) := by
  have hranges : (d.exclusions.map fun e => "\x7b\"start\":".toList ++ display e.start ++
      ",\"length\":".toList ++ display e.length ++ "\x7d".toList) =
        d.exclusions.map exclusionText :=
    List.map_congr_left fun e _ => (exclusionText_eq e).symm
  rw [DataHash.toJson, hranges, members]
  cases d.name with
  | none =>
    simp only [Option.toList_none, List.map_nil, List.append_nil, List.map_cons, rangesText, quoted,
      List.intercalate_cons_cons, List.intercalate_singleton, List.append_assoc, List.cons_append]
    rfl
  | some name =>
    simp only [Option.toList_some, List.map_nil, List.map_cons, rangesText, quoted,
      List.intercalate_cons_cons, List.intercalate_singleton, List.append_assoc, List.cons_append,
      List.nil_append]
    rfl

theorem plain_base64 (bytes : List UInt8) : Plain (base64 bytes) := by
  intro c hc
  rcases mem_base64 hc with rfl | ⟨n, rfl⟩
  · decide
  · exact (base64Char_plain n).2

theorem reads_exclusion (e : Exclusion) : Reads value (exclusionText e) e.toValue True := by
  have hkeys : ∀ b ∈ [("start".toList, e.start), ("length".toList, e.length)], Plain b.1 := by
    simp only [List.forall_mem_cons, List.not_mem_nil, false_implies, implies_true, and_true]
    decide
  have hnats : ∀ b ∈ [("start".toList, e.start), ("length".toList, e.length)],
      Reads value (display b.2) (.nat b.2) True := fun b _ => reads_nat b.2
  exact (reads_object hkeys hnats).of_iff (iff_true_intro fun _ _ => trivial)

theorem reads_ranges (exclusions : List Exclusion) :
    Reads value (rangesText exclusions) (.arr (exclusions.map Exclusion.toValue)) True :=
  (reads_array fun e _ => reads_exclusion e).of_iff (iff_true_intro fun _ _ => trivial)

theorem forall_members_iff {d : DataHash} {P : Member → Prop} : (∀ b ∈ members d, P b) ↔
    (P ⟨"exclusions".toList, rangesText d.exclusions,
        .arr (d.exclusions.map Exclusion.toValue), True⟩ ∧
      P ⟨"alg".toList, quoted d.alg.toList, .str d.alg.toList, Plain d.alg.toList⟩ ∧
      P ⟨"hash".toList, quoted (base64 d.hash), .str (base64 d.hash), True⟩ ∧
      P ⟨"pad".toList, quoted (base64 d.pad), .str (base64 d.pad), True⟩) ∧
    ∀ name ∈ d.name,
      P ⟨"name".toList, quoted name.toList, .str name.toList, Plain name.toList⟩ := by
  simp only [members, List.forall_mem_append, List.forall_mem_cons, List.not_mem_nil,
    false_implies, implies_true, and_true, List.forall_mem_map, Option.mem_toList, Option.mem_def]

theorem members_good_iff (d : DataHash) : (∀ b ∈ members d, b.good) ↔ PlainStrings d := by
  rw [forall_members_iff, PlainStrings, true_and, true_and, and_true]

theorem members_plain (d : DataHash) : ∀ b ∈ members d, Plain b.key := by
  have hkeys : Plain "exclusions".toList ∧ Plain "alg".toList ∧ Plain "hash".toList ∧
      Plain "pad".toList ∧ Plain "name".toList := by decide
  obtain ⟨hexclusions, halg, hhash, hpad, hname⟩ := hkeys
  rw [forall_members_iff]
  exact ⟨⟨hexclusions, halg, hhash, hpad⟩, fun _ _ => hname⟩

theorem members_read (d : DataHash) : ∀ b ∈ members d, Reads value b.text b.val b.good := by
  have hbase64 : ∀ bytes, Reads value (quoted (base64 bytes)) (.str (base64 bytes)) True :=
    fun bytes => (reads_string _).of_iff (iff_true_intro (plain_base64 bytes))
  rw [forall_members_iff]
  exact ⟨⟨reads_ranges _, reads_string _, hbase64 _, hbase64 _⟩, fun _ _ => reads_string _⟩

theorem reads_toJson (d : DataHash) :
    Reads value d.toJson (.obj ((members d).map fun b => (b.key, b.val))) (PlainStrings d) := by
  rw [toJson_eq]
  exact (reads_object (members_plain d) (members_read d)).of_iff (members_good_iff d)

theorem denotes_iff {v : Value} {d : DataHash} :
    Denotes v d ↔ v = .obj ((members d).map fun b => (b.key, b.val)) := by
  have hmembers : ((members d).map fun b => (b.key, b.val)) =
      [("exclusions".toList, .arr (d.exclusions.map Exclusion.toValue)),
        ("alg".toList, .str d.alg.toList), ("hash".toList, .str (base64 d.hash)),
        ("pad".toList, .str (base64 d.pad))] ++
        d.name.toList.map fun name => ("name".toList, .str name.toList) := by
    rw [members, List.map_append, List.map_map]
    rfl
  simp only [Denotes, decode_eq_some_iff]
  constructor
  · rintro ⟨_, _, rfl, rfl, rfl⟩
    rw [hmembers]
  · rintro rfl
    exact ⟨_, _, rfl, rfl, by rw [hmembers]⟩

theorem parse_toJson_iff (d : DataHash) :
    (∃ v, parse d.toJson = some v ∧ Denotes v d) ↔ PlainStrings d := by
  rw [← parse_eq_some_iff (reads_toJson d)]
  constructor
  · rintro ⟨v, hparse, hdenotes⟩
    rw [hparse, denotes_iff.mp hdenotes]
  · exact fun hparse => ⟨_, hparse, denotes_iff.mpr rfl⟩

theorem quoted_append (s rest : Text) : quoted s ++ rest = '"' :: (s ++ '"' :: rest) := by
  rw [quoted, List.cons_append, List.append_assoc]
  rfl

theorem quoted_reverse (s : Text) : (quoted s).reverse = quoted s.reverse := by
  simp [quoted]

theorem count_quoted (s : Text) : (quoted s).count '"' = s.count '"' + 2 := by
  simp [quoted]

theorem quoted_append_inj {s s' rest rest' : Text} (hs : '"' ∉ s) (hs' : '"' ∉ s')
    (h : quoted s ++ rest = quoted s' ++ rest') : s = s' ∧ rest = rest' := by
  rw [quoted_append, quoted_append] at h
  obtain ⟨t, rfl, ht⟩ := exists_of_append_eq hs' (List.cons.inj h).2
  cases t with
  | nil => exact ⟨List.append_nil s', (List.cons.inj ht).2.symm⟩
  | cons c t =>
    obtain ⟨rfl, _⟩ := List.cons.inj ht
    exact absurd (List.mem_append_right s' List.mem_cons_self) hs

theorem append_quoted_inj {s s' front front' : Text} (hs : '"' ∉ s) (hs' : '"' ∉ s')
    (h : front ++ quoted s = front' ++ quoted s') : front = front' := by
  have hreverse := congrArg List.reverse h
  rw [List.reverse_append, List.reverse_append, quoted_reverse, quoted_reverse] at hreverse
  have hfronts := (quoted_append_inj (by rwa [List.mem_reverse]) (by rwa [List.mem_reverse])
    hreverse).2
  exact List.reverse_injective hfronts

def ending : Option String → Text
  | none => ['\x7d']
  | some name => ",\"name\":".toList ++ (quoted name.toList ++ ['\x7d'])

def afterAlg (d : DataHash) : Text :=
  ",\"hash\":".toList ++ (quoted (base64 d.hash) ++ (",\"pad\":".toList ++
    (quoted (base64 d.pad) ++ ending d.name)))

theorem toJson_split (d : DataHash) : d.toJson = "\x7b\"exclusions\":".toList ++
    (rangesText d.exclusions ++ (",\"alg\":".toList ++ (quoted d.alg.toList ++ afterAlg d))) := by
  have hopen : "\x7b\"exclusions\":".toList = '\x7b' :: '"' :: ("exclusions".toList ++ ['"', ':']) :=
    rfl
  rw [toJson_eq, members]
  unfold afterAlg ending
  generalize rangesText d.exclusions = ranges
  generalize quoted d.alg.toList = alg
  generalize quoted (base64 d.hash) = hash
  generalize quoted (base64 d.pad) = pad
  cases d.name with
  | none =>
    simp only [Option.toList_none, List.map_nil, List.append_nil, List.map_cons,
      List.intercalate_cons_cons, List.intercalate_singleton, List.append_assoc, List.cons_append]
    rfl
  | some name =>
    simp only [Option.toList_some, List.map_nil, List.map_cons, List.nil_append,
      List.intercalate_cons_cons, List.intercalate_singleton, List.append_assoc, List.cons_append]
    rfl

theorem count_base64 (bytes : List UInt8) : (base64 bytes).count '"' = 0 :=
  List.count_eq_zero.mpr (plain_base64 bytes).not_mem

theorem count_afterAlg (d : DataHash) :
    (afterAlg d).count '"' = 8 + (ending d.name).count '"' := by
  have hhash : (",\"hash\":".toList).count '"' = 2 := by decide
  have hpad : (",\"pad\":".toList).count '"' = 2 := by decide
  unfold afterAlg
  rw [List.count_append, hhash, List.count_append, count_quoted, count_base64 d.hash,
    List.count_append, hpad, List.count_append, count_quoted, count_base64 d.pad]
  omega

theorem count_ending (name : String) :
    (ending (some name)).count '"' = 4 + name.toList.count '"' := by
  have hname : (",\"name\":".toList).count '"' = 2 := by decide
  have hclose : ['\x7d'].count '"' = 0 := by decide
  unfold ending
  rw [List.count_append, hname, List.count_append, count_quoted, hclose]
  omega

theorem afterAlg_ne {d d' : DataHash} (hname : ∀ name ∈ d.name, '"' ∉ name.toList) (u : Text) :
    afterAlg d ≠ u ++ '"' :: afterAlg d' := by
  intro h
  have hcount := congrArg (List.count '"') h
  rw [List.count_append, List.count_cons_self, count_afterAlg, count_afterAlg] at hcount
  cases hd : d.name with
  | none =>
    have hnone : (ending none).count '"' = 0 := by decide
    rw [hd, hnone] at hcount
    omega
  | some name =>
    have hquote := hname name hd
    rw [hd, count_ending, List.count_eq_zero.mpr hquote] at hcount
    cases hd' : d'.name with
    | some name' =>
      rw [hd', count_ending] at hcount
      omega
    | none =>
      unfold afterAlg ending at h
      rw [hd, hd'] at h
      simp only [← List.append_assoc, ← List.cons_append] at h
      have hquoted := List.append_cancel_right h
      have hfront := append_quoted_inj hquote (plain_base64 d'.pad).not_mem hquoted
      -- `"name":` in front of the last string of one, `"pad":` in front of that of the other
      have hreverse := congrArg List.reverse hfront
      simp at hreverse

theorem ranges_inj {exclusions exclusions' : List Exclusion} {rest rest' : Text}
    (hrest : Stops rest) (hrest' : Stops rest')
    (h : rangesText exclusions ++ rest = rangesText exclusions' ++ rest') :
    exclusions = exclusions' ∧ rest = rest' := by
  have hread := (reads_ranges exclusions).exact
    (max (rangesText exclusions).length (rangesText exclusions').length)
    (Nat.le_max_left _ _) rest hrest rest
  have hread' := (reads_ranges exclusions').exact
    (max (rangesText exclusions).length (rangesText exclusions').length)
    (Nat.le_max_right _ _) rest' hrest' rest'
  rw [h, hread'.mpr ⟨trivial, rfl⟩] at hread
  have heq := hread.mpr ⟨trivial, rfl⟩
  simp only [Option.some.injEq, Prod.mk.injEq, Value.arr.injEq] at heq
  refine ⟨List.map_injective_iff.mpr ?_ heq.1.symm, heq.2.symm⟩
  rintro ⟨start, length⟩ ⟨start', length'⟩ heq
  simpa [Exclusion.toValue, Value.nat] using heq

theorem ending_injective : Function.Injective ending := by
  intro name name' h
  cases name with
  | none => cases name' with
    | none => rfl
    | some name' => cases (List.cons.inj h).1
  | some name => cases name' with
    | none => cases (List.cons.inj h).1
    | some name' =>
      have hname := List.append_cancel_right (List.append_cancel_left h)
      rw [quoted, quoted, List.cons.injEq, List.append_cancel_right_eq] at hname
      exact congrArg some (String.toList_inj.mp hname.2)

theorem toJson_unique {d d' : DataHash} (hplain : PlainStrings d) (h : d'.toJson = d.toJson) :
    d' = d := by
  have hname : ∀ name ∈ d.name, '"' ∉ name.toList := fun name h => (hplain.2 name h).not_mem
  rw [toJson_split, toJson_split] at h
  have hstops : ∀ s, Stops (",\"alg\":".toList ++ s) := fun s => stops_cons (.inl rfl) _
  obtain ⟨hexclusions, hrest⟩ := ranges_inj (hstops _) (hstops _) (List.append_cancel_left h)
  have halg := List.append_cancel_left hrest
  by_cases hquote : '"' ∈ d'.alg.toList
  · -- the longer algorithm runs over a quotation mark of the other text
    rw [quoted_append, quoted_append] at halg
    obtain ⟨t, ht, hafter⟩ := exists_of_append_eq hplain.1.not_mem (List.cons.inj halg).2
    cases t with
    | nil =>
      rw [ht, List.append_nil] at hquote
      exact absurd hquote hplain.1.not_mem
    | cons c t =>
      obtain ⟨rfl, hwithin⟩ := List.cons.inj hafter
      exact absurd hwithin (afterAlg_ne hname t)
  · obtain ⟨halg, hafter⟩ := quoted_append_inj hquote hplain.1.not_mem halg
    have hbase64 : ∀ bytes, '"' ∉ base64 bytes := fun bytes => (plain_base64 bytes).not_mem
    obtain ⟨hhash, hrest⟩ := quoted_append_inj (hbase64 _) (hbase64 _)
      (List.append_cancel_left hafter)
    obtain ⟨hpad, hending⟩ := quoted_append_inj (hbase64 _) (hbase64 _)
      (List.append_cancel_left hrest)
    rw [DataHash.mk.injEq]
    exact ⟨hexclusions, String.toList_inj.mp halg, base64_injective hhash, base64_injective hpad,
      ending_injective hending⟩

theorem toJson_faithful_iff (d : DataHash) : Faithful d ↔ PlainStrings d := by
  constructor
  · exact fun h => (parse_toJson_iff d).mp h.reads
  · exact fun h => ⟨(parse_toJson_iff d).mpr h, fun _ => toJson_unique h⟩

/-- A name with quotation marks in it leaves no JSON text, and an algorithm may spell out the
members of another hash. -/
theorem toJson_unescaped :
    (¬Faithful ⟨[], "sha256", [], [], some "the \"final\" draft"⟩ ∧
      (parse (DataHash.toJson ⟨[], "sha256", [], [], some "the \"final\" draft"⟩)).isNone) ∧
    DataHash.toJson ⟨[], "x\",\"hash\":\"\",\"pad\":\"\",\"name\":\"y", [], [], none⟩ =
      DataHash.toJson ⟨[], "x", [], [], some "y\",\"hash\":\"\",\"pad\":\""⟩ := by
  refine ⟨⟨?_, by decide +kernel⟩, by decide +kernel⟩
  intro h
  exact absurd ((parse_toJson_iff _).mp h.reads) (by decide)

example : DataHash.toJson ⟨[⟨73, 114⟩], "sha256", [0xDE, 0xAD, 0xBE, 0xEF], [], none⟩ =
    ("\x7b\"exclusions\":[\x7b\"start\":73,\"length\":114\x7d],\"alg\":\"sha256\"," ++
      "\"hash\":\"3q2+7w==\",\"pad\":\"\"\x7d").toList := by
  decide +kernel

end UnstructuredText
