import UnstructuredText.Source.PythonDefs
import UnstructuredText.Source.WasmDefs
import UnstructuredText.Lib.JsonReads

/-! What a caller in another language can tell from the text of an error. The opening words
name the error and what follows them its value; a status code stands in brackets at the end
exactly when the error has one. -/

namespace UnstructuredText
open Json

theorem display_injective : Function.Injective display :=
  Function.LeftInverse.injective fun _ => Nat.ofDigitChars_ten_toDigits

inductive Kind
  | notFound
  | corruptedWrapper
  | multipleWrappers
  | payloadTooLarge
  | unrepresentableGap
  | malformedExclusion
  | hashMismatch
  | unsupportedAlgorithm

def Error.kind : Error → Kind
  | notFound => .notFound
  | corruptedWrapper => .corruptedWrapper
  | multipleWrappers => .multipleWrappers
  | payloadTooLarge _ => .payloadTooLarge
  | unrepresentableGap _ => .unrepresentableGap
  | malformedExclusion => .malformedExclusion
  | hashMismatch => .hashMismatch
  | unsupportedAlgorithm _ => .unsupportedAlgorithm

/-- The first eleven characters of a message. -/
def Kind.opening : Kind → Text
  | notFound => "no C2PA tex".toList
  | corruptedWrapper => "wrapper can".toList
  | multipleWrappers => "more than o".toList
  | payloadTooLarge => "payload of ".toList
  | unrepresentableGap => "a padding g".toList
  | malformedExclusion => "data hash e".toList
  | hashMismatch => "data hash d".toList
  | unsupportedAlgorithm => "unsupported".toList

theorem opening_injective : Function.Injective Kind.opening := by
  intro k k' h
  cases k <;> cases k' <;> first | rfl | exact absurd h (by decide)

theorem take_message (e : Error) : e.message.take 11 = e.kind.opening := by
  cases e <;> rfl

theorem message_injective : Function.Injective Error.message := by
  intro e e' h
  have hkind : e.kind = e'.kind := by
    apply opening_injective
    rw [← take_message, ← take_message, h]
  cases e with
  | payloadTooLarge n =>
    cases e' <;> cases hkind
    have hdigits := List.append_cancel_left (List.append_cancel_right h)
    rw [display_injective hdigits]
  | unrepresentableGap n =>
    cases e' <;> cases hkind
    have hdigits := List.append_cancel_left (List.append_cancel_right h)
    rw [display_injective hdigits]
  | unsupportedAlgorithm a =>
    cases e' <;> cases hkind
    have hfmt := List.append_cancel_right (List.append_cancel_right (List.append_cancel_right h))
    rw [String.toList_inj.mp (List.append_cancel_left hfmt)]
  | _ =>
    cases e' <;> cases hkind
    rfl

def bracketed (code : String) : Text := " [".toList ++ code.toList ++ "]".toList

theorem last_bracket {u v k c : Text} (hk : '[' ∉ k) (hc : '[' ∉ c)
    (h : u ++ '[' :: k = v ++ '[' :: c) : k = c := by
  have hlast : ∀ {t k c : Text}, '[' ∉ k → '[' :: k = t ++ '[' :: c → k = c := by
    intro t k c hk ht
    cases t with
    | nil => exact (List.cons.inj ht).2
    | cons b t =>
      refine absurd ?_ hk
      rw [(List.cons.inj ht).2]
      exact List.mem_append_right t List.mem_cons_self
  rcases List.append_eq_append_iff.mp h with ⟨t, _, ht⟩ | ⟨t, _, ht⟩
  · exact hlast hk ht
  · exact (hlast hc ht).symm

theorem bracket_not_mem_code {e : Error} {k : String} (h : e.code = some k) : '[' ∉ k.toList := by
  cases e with
  | notFound => cases h
  | payloadTooLarge n => cases h
  | unrepresentableGap n => cases h
  | _ =>
    obtain rfl := Option.some.inj h
    decide

theorem message_of_code {e : Error} {k : String} (h : e.code = some k) :
    e.message = e.fmt ++ bracketed k := by
  unfold Error.message bracketed
  rw [h]
  simp only [List.append_assoc]

theorem getLast_bracketed (c : String) : (bracketed c).getLast? = some ']' := by
  unfold bracketed
  apply List.getLast?_concat

theorem getLast_behind {s t : Text} {c : Char} (hne : t ≠ []) (h : t.getLast? ≠ some c) :
    (s ++ t).getLast? ≠ some c := by
  rw [List.getLast?_append, List.getLast?_eq_some_getLast hne] at *
  exact h

theorem getLast_message {e : Error} (h : e.code = none) : e.message.getLast? ≠ some ']' := by
  have hmessage : e.message = e.fmt := by
    unfold Error.message
    rw [h]
  rw [hmessage]
  cases e with
  | notFound => decide
  | payloadTooLarge n =>
    unfold Error.fmt
    exact getLast_behind (by decide) (by decide)
  | unrepresentableGap n =>
    unfold Error.fmt
    exact getLast_behind (by decide) (by decide)
  | _ => exact absurd h (Option.some_ne_none _)

theorem not_suffix_of_code {e : Error} (h : e.code = none) (c : String) :
    ¬bracketed c <:+ e.message := by
  rintro ⟨x, hx⟩
  apply getLast_message h
  rw [← hx, List.getLast?_append, getLast_bracketed]
  rfl

theorem bracketed_suffix_iff (e : Error) {c : String} (hc : '[' ∉ c.toList) :
    bracketed c <:+ e.message ↔ e.code = some c := by
  cases hcode : e.code with
  | none => exact iff_of_false (not_suffix_of_code hcode c) (fun h => nomatch h)
  | some k =>
    rw [message_of_code hcode, Option.some_inj]
    constructor
    · rintro ⟨x, hx⟩
      unfold bracketed at hx
      rw [← List.append_assoc x, ← List.append_assoc e.fmt] at hx
      have hbody := List.append_cancel_right hx
      have hsplit : (e.fmt ++ [' ']) ++ '[' :: k.toList = (x ++ [' ']) ++ '[' :: c.toList := by
        simpa using hbody.symm
      exact String.toList_inj.mp (last_bracket (bracket_not_mem_code hcode) hc hsplit)
    · rintro rfl
      exact List.suffix_append _ _

theorem messages_faithful : Function.Injective Error.message ∧
    ∀ (e : Error) (c : String), '[' ∉ c.toList →
      (bracketed c <:+ e.message ↔ e.code = some c) :=
  ⟨message_injective, fun e _ hc => bracketed_suffix_iff e hc⟩

end UnstructuredText
