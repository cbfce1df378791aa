import UnstructuredText.Lib.Base64
import UnstructuredText.Source.JsonDefs

/-! The Base64 encoder is the inverse of the strict decoder: what it writes decodes to the
same bytes, and it writes the only text that does. That text is the standard encoding of
the bytes, which is the only one they have. -/

namespace UnstructuredText
open Base64

theorem base64Char_eq (n : ℕ) : base64Char n = base64Char (n % 64) := by
  have hmod : ∀ m : ℕ, m &&& 63 = m % 64 := fun m => Nat.and_two_pow_sub_one_eq_mod m 6
  unfold base64Char
  simp only [hmod, Nat.mod_mod]

theorem sextet_table : ∀ k < 64, sextet (base64Char k) = some k := by
  decide +kernel

theorem sextet_base64Char (n : ℕ) : sextet (base64Char n) = some (n % 64) := by
  rw [base64Char_eq]
  exact sextet_table _ (Nat.mod_lt n (by decide))

theorem base64Char_ascii : ∀ n < 128, ∀ k, sextet (Char.ofNat n) = some k →
    k < 64 ∧ base64Char k = Char.ofNat n := by
  have h : ∀ n < 128, ((sextet (Char.ofNat n)).all fun k =>
      decide (k < 64 ∧ base64Char k = Char.ofNat n)) = true := by decide +kernel
  intro n hn k hk
  have hall := h n hn
  rw [hk] at hall
  exact of_decide_eq_true hall

theorem sextet_eq_some_iff {c : Char} {k : ℕ} :
    sextet c = some k ↔ k < 64 ∧ c = base64Char k := by
  constructor
  · intro h
    have hascii : c.toNat < 128 := by
      unfold sextet at h
      split_ifs at h with h1 h2 h3 h4 h5
      · exact Nat.lt_of_le_of_lt (UInt32.le_iff_toNat_le.mp h1.2) (by decide)
      · exact Nat.lt_of_le_of_lt (UInt32.le_iff_toNat_le.mp h2.2) (by decide)
      · exact Nat.lt_of_le_of_lt (UInt32.le_iff_toNat_le.mp h3.2) (by decide)
      · subst h4; decide
      · subst h5; decide
    have hchar := base64Char_ascii c.toNat hascii k
    rw [Char.ofNat_toNat] at hchar
    exact ⟨(hchar h).1, (hchar h).2.symm⟩
  · rintro ⟨hk, rfl⟩
    exact sextet_table k hk

theorem base64Char_plain (n : ℕ) : base64Char n ≠ '=' ∧ base64Char n ≠ '"' ∧
    base64Char n ≠ '\\' ∧ 0x20 ≤ (base64Char n).toNat := by
  have h : ∀ k < 64, base64Char k ≠ '=' ∧ base64Char k ≠ '"' ∧ base64Char k ≠ '\\' ∧
      0x20 ≤ (base64Char k).toNat := by decide +kernel
  rw [base64Char_eq]
  exact h _ (Nat.mod_lt n (by decide))

theorem packed (a b c : UInt8) : (a.toNat <<< 16) ||| (b.toNat <<< 8) ||| c.toNat =
    a.toNat * 2 ^ 16 + b.toNat * 2 ^ 8 + c.toNat := by
  have hb := b.toNat_lt
  have hc := c.toNat_lt
  have hlow : b.toNat <<< 8 ||| c.toNat = b.toNat * 2 ^ 8 + c.toNat := by
    rw [← Nat.shiftLeft_add_eq_or_of_lt hc, Nat.shiftLeft_eq]
  have hhigh : b.toNat * 2 ^ 8 + c.toNat < 2 ^ 16 := by omega
  rw [Nat.or_assoc, hlow, ← Nat.shiftLeft_add_eq_or_of_lt hhigh, Nat.shiftLeft_eq, Nat.add_assoc]

theorem base64Chunk_eq (chunk : List UInt8) : base64Chunk chunk =
    [base64Char ((chunk.getD 0 0).toNat / 4),
      base64Char ((chunk.getD 0 0).toNat % 4 * 16 + (chunk.getD 1 0).toNat / 16),
      if chunk.length > 1 then
        base64Char ((chunk.getD 1 0).toNat % 16 * 4 + (chunk.getD 2 0).toNat / 64)
      else '=',
      if chunk.length > 2 then base64Char (chunk.getD 2 0).toNat else '='] := by
  have hchar : ∀ n m : ℕ, n % 64 = m % 64 → base64Char n = base64Char m := by
    intro n m h
    rw [base64Char_eq n, h, ← base64Char_eq]
  rw [base64Chunk]
  simp only [packed, Nat.shiftRight_eq_div_pow]
  generalize chunk.getD 0 0 = a
  generalize chunk.getD 1 0 = b
  generalize chunk.getD 2 0 = c
  have ha := a.toNat_lt
  have hb := b.toNat_lt
  have hc := c.toNat_lt
  have h0 := hchar ((a.toNat * 2 ^ 16 + b.toNat * 2 ^ 8 + c.toNat) / 2 ^ 18) (a.toNat / 4) (by omega)
  have h1 := hchar ((a.toNat * 2 ^ 16 + b.toNat * 2 ^ 8 + c.toNat) / 2 ^ 12)
    (a.toNat % 4 * 16 + b.toNat / 16) (by omega)
  have h2 := hchar ((a.toNat * 2 ^ 16 + b.toNat * 2 ^ 8 + c.toNat) / 2 ^ 6)
    (b.toNat % 16 * 4 + c.toNat / 64) (by omega)
  have h3 := hchar (a.toNat * 2 ^ 16 + b.toNat * 2 ^ 8 + c.toNat) c.toNat (by omega)
  rw [h0, h1, h2, h3]

theorem base64_one (a : UInt8) :
    base64 [a] = [base64Char (a.toNat / 4), base64Char (a.toNat % 4 * 16), '=', '='] := by
  simp [base64, chunks, base64Chunk_eq]

theorem base64_two (a b : UInt8) : base64 [a, b] =
    [base64Char (a.toNat / 4), base64Char (a.toNat % 4 * 16 + b.toNat / 16),
      base64Char (b.toNat % 16 * 4), '='] := by
  simp [base64, chunks, base64Chunk_eq]

theorem base64_three (a b c : UInt8) (bytes : List UInt8) : base64 (a :: b :: c :: bytes) =
    base64Char (a.toNat / 4) :: base64Char (a.toNat % 4 * 16 + b.toNat / 16) ::
      base64Char (b.toNat % 16 * 4 + c.toNat / 64) :: base64Char c.toNat :: base64 bytes := by
  simp only [base64, chunks, List.flatMap_cons, base64Chunk_eq]
  rfl

theorem ofNat_eq (a : UInt8) {n : ℕ} (h : n = a.toNat) : UInt8.ofNat n = a := by
  rw [h, UInt8.ofNat_toNat]

theorem quantum_chunk (a b c : UInt8) :
    quantum (base64Char (a.toNat / 4)) (base64Char (a.toNat % 4 * 16 + b.toNat / 16))
      (base64Char (b.toNat % 16 * 4 + c.toNat / 64)) (base64Char c.toNat) = some [a, b, c] := by
  have ha := a.toNat_lt
  have hb := b.toNat_lt
  have hc := c.toNat_lt
  simp only [quantum, sextet_base64Char, Option.bind_eq_bind, Option.bind_some, Option.pure_def]
  rw [ofNat_eq a (by omega), ofNat_eq b (by omega), ofNat_eq c (by omega)]

theorem twoBytes_chunk (a b : UInt8) :
    twoBytes (base64Char (a.toNat / 4)) (base64Char (a.toNat % 4 * 16 + b.toNat / 16))
      (base64Char (b.toNat % 16 * 4)) = some [a, b] := by
  have ha := a.toNat_lt
  have hb := b.toNat_lt
  simp only [twoBytes, sextet_base64Char, Option.bind_eq_bind, Option.bind_some, Option.pure_def]
  rw [if_pos (by omega), ofNat_eq a (by omega), ofNat_eq b (by omega)]

theorem oneByte_chunk (a : UInt8) :
    oneByte (base64Char (a.toNat / 4)) (base64Char (a.toNat % 4 * 16)) = some [a] := by
  have ha := a.toNat_lt
  simp only [oneByte, sextet_base64Char, Option.bind_eq_bind, Option.bind_some, Option.pure_def]
  rw [if_pos (by omega), ofNat_eq a (by omega)]

theorem toNat_ofNat_of_lt {n : ℕ} (h : n < 256) : (UInt8.ofNat n).toNat = n :=
  UInt8.toNat_ofNat_of_lt' h

theorem eq_of_quantum {a b c d : Char} {q : List UInt8} (h : quantum a b c d = some q)
    (s : List Char) : ∃ x y z, q = [x, y, z] ∧
      ∀ bytes, s = base64 bytes → a :: b :: c :: d :: s = base64 (q ++ bytes) := by
  simp only [quantum, Option.bind_eq_bind, Option.bind_eq_some_iff, sextet_eq_some_iff,
    Option.pure_def, Option.some.injEq] at h
  obtain ⟨i, ⟨hi, rfl⟩, j, ⟨hj, rfl⟩, k, ⟨hk, rfl⟩, l, ⟨hl, rfl⟩, rfl⟩ := h
  refine ⟨_, _, _, rfl, fun bytes hs => ?_⟩
  subst hs
  change _ = base64 (_ :: _ :: _ :: bytes)
  rw [base64_three, toNat_ofNat_of_lt (by omega), toNat_ofNat_of_lt (by omega),
    toNat_ofNat_of_lt (by omega), show (i * 4 + j / 16) / 4 = i by omega,
    show (i * 4 + j / 16) % 4 * 16 + (j % 16 * 16 + k / 4) / 16 = j by omega,
    show (j % 16 * 16 + k / 4) % 16 * 4 + (k % 4 * 64 + l) / 64 = k by omega,
    base64Char_eq (k % 4 * 64 + l), show (k % 4 * 64 + l) % 64 = l by omega]

theorem eq_of_twoBytes {a b c : Char} {bytes : List UInt8} (h : twoBytes a b c = some bytes) :
    [a, b, c, '='] = base64 bytes := by
  simp only [twoBytes, Option.bind_eq_bind, Option.bind_eq_some_iff, sextet_eq_some_iff,
    Option.pure_def, Option.ite_none_right_eq_some, Option.some.injEq] at h
  obtain ⟨i, ⟨hi, rfl⟩, j, ⟨hj, rfl⟩, k, ⟨hk, rfl⟩, hlow, rfl⟩ := h
  rw [base64_two, toNat_ofNat_of_lt (by omega), toNat_ofNat_of_lt (by omega),
    show (i * 4 + j / 16) / 4 = i by omega,
    show (i * 4 + j / 16) % 4 * 16 + (j % 16 * 16 + k / 4) / 16 = j by omega,
    show (j % 16 * 16 + k / 4) % 16 * 4 = k by omega]

theorem eq_of_oneByte {a b : Char} {bytes : List UInt8} (h : oneByte a b = some bytes) :
    [a, b, '=', '='] = base64 bytes := by
  simp only [oneByte, Option.bind_eq_bind, Option.bind_eq_some_iff, sextet_eq_some_iff,
    Option.pure_def, Option.ite_none_right_eq_some, Option.some.injEq] at h
  obtain ⟨i, ⟨hi, rfl⟩, j, ⟨hj, rfl⟩, hlow, rfl⟩ := h
  rw [base64_one, toNat_ofNat_of_lt (by omega), show (i * 4 + j / 16) / 4 = i by omega,
    show (i * 4 + j / 16) % 4 * 16 = j by omega]

theorem decode_cons {a b c d : Char} {q : List UInt8} (h : quantum a b c d = some q)
    (hd : d ≠ '=') (s : List Char) :
    decode (a :: b :: c :: d :: s) = (decode s).map fun rest => q ++ rest := by
  rw [decode]
  split_ifs with hs
  · subst hs
    rw [lastQuantum, if_neg hd, h, decode, Option.map_some, List.append_nil]
  · rw [h]
    cases decode s <;> rfl

theorem decode_base64 (bytes : List UInt8) : decode (base64 bytes) = some bytes := by
  induction bytes using chunks.induct with
  | case1 => rfl
  | case2 a =>
    rw [base64_one, decode, if_pos rfl]
    exact oneByte_chunk a
  | case3 a b =>
    rw [base64_two, decode, if_pos rfl, lastQuantum, if_pos rfl, if_neg (base64Char_plain _).1]
    exact twoBytes_chunk a b
  | case4 a b c bytes ih =>
    rw [base64_three, decode_cons (quantum_chunk a b c) (base64Char_plain _).1, ih]
    rfl

theorem base64_injective : Function.Injective base64 := by
  intro bytes bytes' h
  apply Option.some.inj
  rw [← decode_base64 bytes, h, decode_base64]

theorem eq_base64_of_decode {s : List Char} {bytes : List UInt8} (h : decode s = some bytes) :
    s = base64 bytes := by
  induction s using decode.induct generalizing bytes with
  | case1 =>
    obtain rfl := Option.some.inj h
    rfl
  | case2 a b c d =>
    rw [decode, if_pos rfl, lastQuantum] at h
    split_ifs at h with hd hc
    · rw [hd, hc]
      exact eq_of_oneByte h
    · rw [hd]
      exact eq_of_twoBytes h
    · obtain ⟨_, _, _, _, heq⟩ := eq_of_quantum h []
      have hbytes := heq [] rfl
      rwa [List.append_nil] at hbytes
  | case3 a b c d s hs ih =>
    rw [decode, if_neg hs] at h
    simp only [Option.bind_eq_bind, Option.bind_eq_some_iff, Option.pure_def,
      Option.some.injEq] at h
    obtain ⟨q, hq, rest, hrest, rfl⟩ := h
    obtain ⟨_, _, _, _, heq⟩ := eq_of_quantum hq s
    exact heq rest (ih hrest)
  | case4 s hnil hcons =>
    rw [decode] at h
    · cases h
    · exact hnil
    · exact hcons

theorem mem_base64 {bytes : List UInt8} {c : Char} (h : c ∈ base64 bytes) :
    c = '=' ∨ ∃ n, c = base64Char n := by
  obtain ⟨chunk, _, hc⟩ := List.mem_flatMap.mp h
  rw [base64Chunk_eq] at hc
  simp only [List.mem_cons, List.not_mem_nil, or_false] at hc
  rcases hc with rfl | rfl | rfl | rfl
  · exact .inr ⟨_, rfl⟩
  · exact .inr ⟨_, rfl⟩
  · split_ifs
    · exact .inr ⟨_, rfl⟩
    · exact .inl rfl
  · split_ifs
    · exact .inr ⟨_, rfl⟩
    · exact .inl rfl

theorem decode_eq_some_iff {s : List Char} {bytes : List UInt8} :
    decode s = some bytes ↔ s = base64 bytes := by
  constructor
  · exact eq_base64_of_decode
  · rintro rfl
    exact decode_base64 bytes

theorem spells_chars (ns : List ℕ) {bs : List Bool} (h : ns.flatMap (bits 6) = bs) :
    Spells (ns.map base64Char) bs := by
  refine ⟨ns.map (· % 64), ?_, ?_⟩
  · rw [List.map_map, List.map_map]
    exact List.map_congr_left fun n _ => sextet_base64Char n
  · rw [List.flatMap_map, ← h]
    exact List.flatMap_congr fun n _ => bits_eq_iff.mpr (Nat.mod_mod n 64)

theorem spells_one (a : UInt8) :
    Spells [base64Char (a.toNat / 4), base64Char (a.toNat % 4 * 16)]
      (byteBits [a] ++ List.replicate 4 false) := by
  have hsextets : bits 12 (a.toNat * 16) = bits 6 (a.toNat / 4) ++ bits 6 (a.toNat % 4 * 16) :=
    @bits_split 6 6 _ _ _ (by omega) (by omega)
  have hbytes : bits 12 (a.toNat * 16) = bits 8 a.toNat ++ bits 4 0 :=
    @bits_split 8 4 _ _ _ (by omega) (by omega)
  apply spells_chars [a.toNat / 4, a.toNat % 4 * 16]
  unfold byteBits
  rw [List.flatMap_cons, List.flatMap_singleton, List.flatMap_singleton, ← bits_zero, ← hsextets,
    hbytes]

theorem spells_two (a b : UInt8) :
    Spells [base64Char (a.toNat / 4), base64Char (a.toNat % 4 * 16 + b.toNat / 16),
      base64Char (b.toNat % 16 * 4)] (byteBits [a, b] ++ List.replicate 2 false) := by
  have hb := b.toNat_lt
  obtain ⟨n, hn⟩ : ∃ n, n = a.toNat * 2 ^ 10 + b.toNat * 4 := ⟨_, rfl⟩
  have hsextet : bits 18 n = bits 6 (a.toNat / 4) ++ bits 12 n :=
    @bits_split 6 12 _ _ _ (by omega) rfl
  have hsextets : bits 12 n =
      bits 6 (a.toNat % 4 * 16 + b.toNat / 16) ++ bits 6 (b.toNat % 16 * 4) :=
    @bits_split 6 6 _ _ _ (by omega) (by omega)
  have hbyte : bits 18 n = bits 8 a.toNat ++ bits 10 n := @bits_split 8 10 _ _ _ (by omega) rfl
  have hbytes : bits 10 n = bits 8 b.toNat ++ bits 2 0 :=
    @bits_split 8 2 _ _ _ (by omega) (by omega)
  apply spells_chars [a.toNat / 4, a.toNat % 4 * 16 + b.toNat / 16, b.toNat % 16 * 4]
  unfold byteBits
  simp only [List.flatMap_cons, List.flatMap_nil, List.append_nil, List.append_assoc]
  rw [← bits_zero, ← hsextets, ← hsextet, ← hbytes, hbyte]

theorem spells_three (a b c : UInt8) :
    Spells [base64Char (a.toNat / 4), base64Char (a.toNat % 4 * 16 + b.toNat / 16),
      base64Char (b.toNat % 16 * 4 + c.toNat / 64), base64Char c.toNat] (byteBits [a, b, c]) := by
  have hb := b.toNat_lt
  have hc := c.toNat_lt
  obtain ⟨n, hn⟩ : ∃ n, n = a.toNat * 2 ^ 16 + b.toNat * 2 ^ 8 + c.toNat := ⟨_, rfl⟩
  have hsextet : bits 24 n = bits 6 (a.toNat / 4) ++ bits 18 n :=
    @bits_split 6 18 _ _ _ (by omega) rfl
  have hsextet' : bits 18 n = bits 6 (a.toNat % 4 * 16 + b.toNat / 16) ++ bits 12 n :=
    @bits_split 6 12 _ _ _ (by omega) rfl
  have hsextets : bits 12 n = bits 6 (b.toNat % 16 * 4 + c.toNat / 64) ++ bits 6 c.toNat :=
    @bits_split 6 6 _ _ _ (by omega) (by omega)
  have hbyte : bits 24 n = bits 8 a.toNat ++ bits 16 n := @bits_split 8 16 _ _ _ (by omega) rfl
  have hbytes : bits 16 n = bits 8 b.toNat ++ bits 8 c.toNat :=
    @bits_split 8 8 _ _ _ (by omega) (by omega)
  apply spells_chars [a.toNat / 4, a.toNat % 4 * 16 + b.toNat / 16,
    b.toNat % 16 * 4 + c.toNat / 64, c.toNat]
  unfold byteBits
  simp only [List.flatMap_cons, List.flatMap_nil, List.append_nil]
  rw [← hsextets, ← hsextet', ← hsextet, ← hbytes, hbyte]

theorem encodes_base64 (bytes : List UInt8) : Encodes bytes (base64 bytes) := by
  induction bytes using chunks.induct with
  | case1 => exact ⟨rfl, [], rfl, List.not_mem_nil, spells_nil⟩
  | case2 a =>
    rw [base64_one]
    exact @Encodes.of_spells [a] [_, _] (by simp [padCount]) (spells_one a)
  | case3 a b =>
    rw [base64_two]
    exact @Encodes.of_spells [a, b] [_, _, _] (by simp [padCount]) (spells_two a b)
  | case4 a b c bytes ih =>
    rw [base64_three]
    exact Encodes.quantum_append rfl rfl (spells_three a b c) ih

theorem exists_chars {s : List Char} {bs : List Bool} (h : Spells s bs) : ∃ ns : List ℕ,
    (∀ n ∈ ns, n < 2 ^ 6) ∧ s = ns.map base64Char ∧ ns.flatMap (bits 6) = bs := by
  obtain ⟨ns, hs, rfl⟩ := h
  refine ⟨ns, ?_, ?_, rfl⟩
  · intro n hn
    obtain ⟨c, _, hc⟩ := List.mem_map.mp (hs ▸ List.mem_map_of_mem hn)
    exact (sextet_eq_some_iff.mp hc).1
  · induction s generalizing ns with
    | nil => rw [List.map_eq_nil_iff.mp hs.symm, List.map_nil]
    | cons c s ih =>
      obtain ⟨n, ns, rfl⟩ := List.exists_cons_of_ne_nil (show ns ≠ [] by rintro rfl; cases hs)
      obtain ⟨hc, hs⟩ := List.cons.inj hs
      rw [List.map_cons, (sextet_eq_some_iff.mp hc).2, ih ns hs]

theorem encodes_iff {bytes : List UInt8} {s : List Char} :
    Encodes bytes s ↔ s = base64 bytes := by
  constructor
  · rintro ⟨_, body, rfl, _, hbody⟩
    obtain ⟨body', hbase64, _, hbody'⟩ := (encodes_base64 bytes).spelled
    obtain ⟨ns, hns, rfl, hbits⟩ := exists_chars hbody
    obtain ⟨ms, hms, rfl, hbits'⟩ := exists_chars hbody'
    rw [hbase64, flatMap_bits_inj (by decide) hns hms (hbits.trans hbits'.symm)]
  · rintro rfl
    exact encodes_base64 bytes

theorem decode_iff_encodes {s : List Char} {bytes : List UInt8} :
    decode s = some bytes ↔ Encodes bytes s := by
  rw [decode_eq_some_iff, encodes_iff]

/-- Every text of the encoder is the standard encoding and decodes to its bytes, so no two
sequences of bytes share one. -/
theorem base64_standard :
    (∀ bytes, Encodes bytes (base64 bytes) ∧ decode (base64 bytes) = some bytes) ∧
      Function.Injective base64 := by
  constructor
  · exact fun bytes => ⟨encodes_base64 bytes, decode_base64 bytes⟩
  · exact base64_injective

example : base64 [0x66, 0x6F, 0x6F, 0x62, 0x61] = "Zm9vYmE=".toList := by decide

end UnstructuredText
