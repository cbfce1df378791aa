import Mathlib.Algebra.Order.Group.Nat
import Mathlib.Data.List.Basic

/-! Base64, as a property of a text and as a strict decoder. The characters of an encoding
spell the bits of the bytes, six at a time, and zeros up to a whole character; padding fills
the last four. The decoder takes four characters for three bytes, padding in the last four
only, and no bit set that no byte takes up. -/

namespace Base64

def sextet (c : Char) : Option ℕ :=
  if 'A' ≤ c ∧ c ≤ 'Z' then some (c.toNat - 'A'.toNat)
  else if 'a' ≤ c ∧ c ≤ 'z' then some (c.toNat - 'a'.toNat + 26)
  else if '0' ≤ c ∧ c ≤ '9' then some (c.toNat - '0'.toNat + 52)
  else if c = '+' then some 62
  else if c = '/' then some 63
  else none

def quantum (a b c d : Char) : Option (List UInt8) := do
  let a ← sextet a
  let b ← sextet b
  let c ← sextet c
  let d ← sextet d
  return [UInt8.ofNat (a * 4 + b / 16), UInt8.ofNat (b % 16 * 16 + c / 4),
    UInt8.ofNat (c % 4 * 64 + d)]

def oneByte (a b : Char) : Option (List UInt8) := do
  let a ← sextet a
  let b ← sextet b
  if b % 16 = 0 then return [UInt8.ofNat (a * 4 + b / 16)] else none

def twoBytes (a b c : Char) : Option (List UInt8) := do
  let a ← sextet a
  let b ← sextet b
  let c ← sextet c
  if c % 4 = 0 then
    return [UInt8.ofNat (a * 4 + b / 16), UInt8.ofNat (b % 16 * 16 + c / 4)]
  else none

def lastQuantum (a b c d : Char) : Option (List UInt8) :=
  if d = '=' then if c = '=' then oneByte a b else twoBytes a b c
  else quantum a b c d

def decode : List Char → Option (List UInt8)
  | [] => some []
  | a :: b :: c :: d :: s =>
    if s = [] then lastQuantum a b c d
    else do
      let bytes ← quantum a b c d
      let rest ← decode s
      return bytes ++ rest
  | _ => none

def bits (w n : ℕ) : List Bool := (List.range w).reverse.map n.testBit

theorem bits_eq_iff {w n m : ℕ} : bits w n = bits w m ↔ n % 2 ^ w = m % 2 ^ w := by
  unfold bits
  simp only [List.map_inj_left, List.mem_reverse, List.mem_range]
  constructor
  · intro h
    apply Nat.eq_of_testBit_eq
    intro i
    rw [Nat.testBit_mod_two_pow, Nat.testBit_mod_two_pow]
    by_cases hi : i < w
    · rw [h i hi]
    · rw [decide_eq_false hi, Bool.false_and, Bool.false_and]
  · intro h i hi
    have hbit := congrArg (Nat.testBit · i) h
    simpa only [Nat.testBit_mod_two_pow, hi, decide_true, Bool.true_and] using hbit

theorem bits_length (w n : ℕ) : (bits w n).length = w := by
  rw [bits, List.length_map, List.length_reverse, List.length_range]

theorem bits_append (v w n : ℕ) : bits (v + w) n = bits v (n / 2 ^ w) ++ bits w n := by
  unfold bits
  rw [Nat.add_comm, List.range_add, List.reverse_append, List.map_append, ← List.map_reverse,
    List.map_map]
  refine congrArg (· ++ _) (List.map_congr_left fun i _ => ?_)
  rw [Function.comp_apply, Nat.testBit_div_two_pow, Nat.add_comm]

theorem bits_split {v w n x y : ℕ} (hx : n / 2 ^ w % 2 ^ v = x % 2 ^ v)
    (hy : n % 2 ^ w = y % 2 ^ w) : bits (v + w) n = bits v x ++ bits w y := by
  rw [bits_append, bits_eq_iff.mpr hx, bits_eq_iff.mpr hy]

theorem bits_zero (w : ℕ) : bits w 0 = List.replicate w false := by
  unfold bits
  simp [List.eq_replicate_iff]

theorem flatMap_bits_inj {w : ℕ} (hw : 0 < w) {ns ms : List ℕ} (hns : ∀ n ∈ ns, n < 2 ^ w)
    (hms : ∀ m ∈ ms, m < 2 ^ w) (h : ns.flatMap (bits w) = ms.flatMap (bits w)) : ns = ms := by
  have hne : ∀ n rest, bits w n ++ rest ≠ [] := by
    intro n rest hnil
    have hlen := congrArg List.length (List.append_eq_nil_iff.mp hnil).1
    rw [bits_length, List.length_nil] at hlen
    exact Nat.ne_of_gt hw hlen
  induction ns generalizing ms with
  | nil => cases ms with
    | nil => rfl
    | cons m ms => exact absurd h.symm (hne m _)
  | cons n ns ih => cases ms with
    | nil => exact absurd h (hne n _)
    | cons m ms =>
      rw [List.forall_mem_cons] at hns hms
      rw [List.flatMap_cons, List.flatMap_cons] at h
      obtain ⟨hhead, htail⟩ := List.append_inj h (by rw [bits_length, bits_length])
      rw [bits_eq_iff, Nat.mod_eq_of_lt hns.1, Nat.mod_eq_of_lt hms.1] at hhead
      rw [hhead, ih hns.2 hms.2 htail]

def byteBits (bytes : List UInt8) : List Bool := bytes.flatMap fun b => bits 8 b.toNat

def Spells (s : List Char) (bs : List Bool) : Prop :=
  ∃ sextets : List ℕ, s.map sextet = sextets.map some ∧ sextets.flatMap (bits 6) = bs

theorem spells_nil : Spells [] [] := ⟨[], rfl, rfl⟩

theorem Spells.append {s s' : List Char} {bs bs' : List Bool} (h : Spells s bs)
    (h' : Spells s' bs') : Spells (s ++ s') (bs ++ bs') := by
  obtain ⟨sextets, hs, rfl⟩ := h
  obtain ⟨sextets', hs', rfl⟩ := h'
  refine ⟨sextets ++ sextets', ?_, List.flatMap_append⟩
  rw [List.map_append, List.map_append, hs, hs']

theorem Spells.not_mem {s : List Char} {bs : List Bool} (h : Spells s bs) : '=' ∉ s := by
  intro hmem
  obtain ⟨sextets, hs, _⟩ := h
  have hnone : none ∈ sextets.map some := hs ▸ List.mem_map_of_mem hmem
  obtain ⟨_, _, hsome⟩ := List.mem_map.mp hnone
  cases hsome

def padCount (bytes : List UInt8) : ℕ := (3 - bytes.length % 3) % 3

/-- The text is the encoding of the bytes: four characters for three bytes or fewer, padding
at its end and nowhere else, and in front of it the bits of the bytes and zeros, in
characters of the alphabet. -/
structure Encodes (bytes : List UInt8) (s : List Char) : Prop where
  length : s.length = 4 * ((bytes.length + 2) / 3)
  spelled : ∃ body, s = body ++ List.replicate (padCount bytes) '=' ∧ '=' ∉ body ∧
    Spells body (byteBits bytes ++ List.replicate (2 * padCount bytes) false)

theorem Encodes.of_spells {bytes : List UInt8} {body : List Char}
    (hlen : body.length + padCount bytes = 4 * ((bytes.length + 2) / 3))
    (h : Spells body (byteBits bytes ++ List.replicate (2 * padCount bytes) false)) :
    Encodes bytes (body ++ List.replicate (padCount bytes) '=') where
  length := by rw [List.length_append, List.length_replicate, hlen]
  spelled := ⟨body, rfl, h.not_mem, h⟩

theorem Encodes.quantum_append {three bytes : List UInt8} {four s : List Char}
    (hthree : three.length = 3) (hfour : four.length = 4) (hspells : Spells four (byteBits three))
    (h : Encodes bytes s) : Encodes (three ++ bytes) (four ++ s) := by
  obtain ⟨hlen, body, rfl, _, hbody⟩ := h
  have hpad : padCount (three ++ bytes) = padCount bytes := by
    unfold padCount
    rw [List.length_append, hthree]
    omega
  have hbits : byteBits (three ++ bytes) = byteBits three ++ byteBits bytes := List.flatMap_append
  rw [← List.append_assoc, ← hpad]
  apply Encodes.of_spells
  · rw [List.length_append, List.length_replicate] at hlen
    rw [hpad, List.length_append, List.length_append, hthree, hfour]
    omega
  · rw [hpad, hbits, List.append_assoc]
    exact hspells.append hbody

end Base64
