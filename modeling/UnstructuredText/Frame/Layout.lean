import UnstructuredText.Source.WrapperDefs
import Mathlib.Data.List.Infix

/-! The layout of a frame. A run that bears the magic and reaches the end of the header
is a header followed by the rest of the run, and the declared length cuts that rest into
payload and trailer. -/

namespace UnstructuredText
open Machine

theorem toBeBytes_fromBeBytes (a b c d : UInt8) : toBeBytes (fromBeBytes a b c d) = [a, b, c, d] := by
  have ha := a.toNat_lt
  have hb := b.toNat_lt
  have hc := c.toNat_lt
  have hd := d.toNat_lt
  have hn : (fromBeBytes a b c d).toNat =
      a.toNat * 2 ^ 24 + b.toNat * 2 ^ 16 + c.toNat * 2 ^ 8 + d.toNat :=
    UInt32.toNat_ofNat_of_lt' (by show _ < 4294967296; omega)
  have byte : ∀ (x : UInt8) (n : ℕ), n % 256 = x.toNat → UInt8.ofNat n = x := by
    intro x n h
    rw [← UInt8.toNat_inj, UInt8.toNat_ofNat', h]
  rw [toBeBytes, hn, byte a _ (by omega), byte b _ (by omega), byte c _ (by omega),
    byte d _ (by omega)]

theorem fromBeBytes_toBeBytes (n : UInt32) :
    fromBeBytes (UInt8.ofNat (n.toNat / 2 ^ 24)) (UInt8.ofNat (n.toNat / 2 ^ 16))
      (UInt8.ofNat (n.toNat / 2 ^ 8)) (UInt8.ofNat n.toNat) = n := by
  have hn := n.toNat_lt
  rw [fromBeBytes]
  simp only [UInt8.toNat_ofNat']
  rw [← UInt32.toNat_inj, UInt32.toNat_ofNat_of_lt' (by show _ < 4294967296; omega)]
  omega

theorem u32TryFrom_some {n : ℕ} (h : n ≤ u32Max) : u32TryFrom n = some (UInt32.ofNat n) :=
  if_pos h

theorem toNat_of_le_u32Max {n : ℕ} (h : n ≤ u32Max) : (UInt32.ofNat n).toNat = n :=
  UInt32.toNat_ofNat_of_lt' (Nat.lt_of_le_of_lt h (by decide))

def header (v : UInt8) (n : UInt32) (rest : List UInt8) : List UInt8 :=
  magic ++ v :: (toBeBytes n ++ rest)

def declared (run : List UInt8) : ℕ :=
  (fromBeBytes (run.getD 9 0) (run.getD 10 0) (run.getD 11 0) (run.getD 12 0)).toNat

def body (run : List UInt8) : List UInt8 := (run.take (headerLen + declared run)).drop headerLen

theorem header_length (v : UInt8) (n : UInt32) (rest : List UInt8) :
    (header v n rest).length = headerLen + rest.length := by
  simp only [header, magic, toBeBytes, List.length_append, List.length_cons, List.length_nil,
    headerLen]
  omega

theorem magic_prefix_header (v : UInt8) (n : UInt32) (rest : List UInt8) :
    magic <+: header v n rest := List.prefix_append magic _

theorem header_version (v : UInt8) (n : UInt32) (rest : List UInt8) :
    (header v n rest)[8]? = some v := rfl

theorem declared_header (v : UInt8) (n : UInt32) (rest : List UInt8) :
    declared (header v n rest) = n.toNat :=
  congrArg UInt32.toNat (fromBeBytes_toBeBytes n)

theorem header_take (v : UInt8) (n : UInt32) (rest : List UInt8) (k : ℕ) :
    (header v n rest).take (headerLen + k) = header v n (rest.take k) := by
  rw [headerLen, Nat.add_comm]
  rfl

theorem header_drop (v : UInt8) (n : UInt32) (rest : List UInt8) (k : ℕ) :
    (header v n rest).drop (headerLen + k) = rest.drop k := by
  rw [headerLen, Nat.add_comm]
  rfl

theorem body_header (v : UInt8) (n : UInt32) (rest : List UInt8) :
    body (header v n rest) = rest.take n.toNat := by
  rw [body, declared_header, header_take]
  exact header_drop v n (rest.take n.toNat) 0

theorem exists_header {run : List UInt8} (hmagic : magic <+: run) (hlen : headerLen ≤ run.length) :
    ∃ v n rest, run = header v n rest := by
  obtain ⟨t, rfl⟩ := hmagic
  obtain ⟨v, a, b, c, d, rest, rfl⟩ : ∃ v a b c d rest, t = v :: a :: b :: c :: d :: rest := by
    rw [List.length_append] at hlen
    match t, hlen with
    | v :: a :: b :: c :: d :: rest, _ => exact ⟨v, a, b, c, d, rest, rfl⟩
  exact ⟨v, fromBeBytes a b c d, rest, by rw [header, toBeBytes_fromBeBytes]; rfl⟩

def frame (v : UInt8) (payload trailer : List UInt8) : List UInt8 :=
  magic ++ [v] ++ toBeBytes (UInt32.ofNat payload.length) ++ payload ++ trailer

theorem frame_eq_header (v : UInt8) (payload trailer : List UInt8) :
    frame v payload trailer = header v (UInt32.ofNat payload.length) (payload ++ trailer) := by
  simp only [frame, header, List.append_assoc, List.cons_append, List.nil_append]

theorem frame_take (v : UInt8) (payload trailer : List UInt8) (k : ℕ) :
    (frame v payload trailer).take (headerLen + payload.length + k) =
      frame v payload (trailer.take k) := by
  rw [frame_eq_header, frame_eq_header, Nat.add_assoc, header_take, List.take_length_add_append]

/-- A run that is long enough for its header, its declared body and `extra` more bytes,
and has version `v`. -/
def Complete (v : UInt8) (extra : ℕ) (run : List UInt8) : Prop :=
  headerLen ≤ run.length ∧ run[8]? = some v ∧ headerLen + declared run + extra ≤ run.length

instance (v : UInt8) (extra : ℕ) (run : List UInt8) : Decidable (Complete v extra run) :=
  inferInstanceAs (Decidable (_ ∧ _ ∧ _))

theorem complete_header {v v' : UInt8} {n : UInt32} {rest : List UInt8} {extra : ℕ} :
    Complete v' extra (header v n rest) ↔ v = v' ∧ n.toNat + extra ≤ rest.length := by
  rw [Complete, header_version, declared_header, header_length, Option.some_inj, Nat.add_assoc,
    Nat.add_le_add_iff_left]
  exact and_iff_right (Nat.le_add_right _ _)

theorem complete_frame (v : UInt8) {payload trailer : List UInt8} {extra : ℕ}
    (hlen : payload.length ≤ u32Max) (hextra : extra ≤ trailer.length) :
    Complete v extra (frame v payload trailer) := by
  rw [frame_eq_header, complete_header, toNat_of_le_u32Max hlen, List.length_append]
  exact ⟨rfl, Nat.add_le_add_left hextra _⟩

theorem not_complete_take {v v' : UInt8} {payload trailer : List UInt8} {extra k : ℕ}
    (hlen : payload.length ≤ u32Max) (hk : k < headerLen + payload.length) :
    ¬Complete v' extra ((frame v payload trailer).take k) := by
  intro h
  have hhead : headerLen ≤ k := Nat.le_trans h.1 (List.length_take_le k _)
  obtain ⟨j, rfl⟩ := Nat.exists_eq_add_of_le hhead
  rw [frame_eq_header, header_take, complete_header, toNat_of_le_u32Max hlen] at h
  have htake := List.length_take_le j (payload ++ trailer)
  omega

theorem body_frame (v : UInt8) {payload : List UInt8} (trailer : List UInt8)
    (hlen : payload.length ≤ u32Max) : body (frame v payload trailer) = payload := by
  rw [frame_eq_header, body_header, toNat_of_le_u32Max hlen, List.take_left]

theorem Complete.eq_frame {v : UInt8} {extra : ℕ} {run : List UInt8} (hmagic : magic <+: run)
    (h : Complete v extra run) :
    (body run).length ≤ u32Max ∧
      ∃ trailer, extra ≤ trailer.length ∧ run = frame v (body run) trailer := by
  obtain ⟨v', n, rest, rfl⟩ := exists_header hmagic h.1
  obtain ⟨rfl, hrest⟩ := complete_header.mp h
  have hn := n.toNat_lt
  have htake : (rest.take n.toNat).length = n.toNat := List.length_take_of_le (by omega)
  rw [body_header, htake]
  refine ⟨by unfold u32Max; omega, rest.drop n.toNat, by rw [List.length_drop]; omega, ?_⟩
  rw [frame_eq_header, htake, UInt32.ofNat_toNat, List.take_append_drop]

theorem complete_iff_frame {v : UInt8} {extra : ℕ} {run payload : List UInt8} :
    (magic <+: run ∧ Complete v extra run ∧ body run = payload) ↔
      payload.length ≤ u32Max ∧
        ∃ trailer, extra ≤ trailer.length ∧ run = frame v payload trailer := by
  constructor
  · rintro ⟨hmagic, hcomplete, rfl⟩
    exact hcomplete.eq_frame hmagic
  · rintro ⟨hlen, trailer, hextra, rfl⟩
    refine ⟨?_, complete_frame v hlen hextra, body_frame v trailer hlen⟩
    rw [frame_eq_header]
    exact magic_prefix_header ..

end UnstructuredText
