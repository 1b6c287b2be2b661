import PositionAutomaton.Proofs.PositionSet.Text
import PositionAutomaton.Trace

/-!
# What messages tell

An error is known by its message (`Error.message_injective`): messages of different kinds start
differently, and what they say of a place, a character or a number can be read off. In the same way
the text of a new state or of a transition tells which one it is, and no other event has that text
(`Event.text_eq_text_iff`). A log therefore has the message of a state or of a transition as often
as the event itself (`Event.count_map_text`).
-/

namespace PositionAutomaton

/-! ### Numbers -/

variable {m n : Nat} {c : Char}

/-- Numbers with the same digits are equal. -/
theorem toDigits_inj : Nat.toDigits 10 m = Nat.toDigits 10 n ↔ m = n := by
  constructor
  · intro h
    calc m = Nat.ofDigitChars 10 (Nat.toDigits 10 m) 0 := Nat.ofDigitChars_ten_toDigits.symm
      _ = Nat.ofDigitChars 10 (Nat.toDigits 10 n) 0 := by rw [h]
      _ = n := Nat.ofDigitChars_ten_toDigits
  · rintro rfl
    rfl

/-- Numbers are written with digits alone. -/
theorem not_mem_toDigits (hc : c.isDigit = false) : c ∉ Nat.toDigits 10 n := by
  intro hmem
  rw [Nat.isDigit_of_mem_toDigits (by decide) (by decide) hmem] at hc
  cases hc

/-- Numbers are written with a digit first. -/
theorem exists_toDigits_eq_cons (n : Nat) :
    ∃ d ds, Nat.toDigits 10 n = d :: ds ∧ d.isDigit = true := by
  obtain ⟨d, ds, hdigits⟩ :=
    List.exists_cons_of_ne_nil (Nat.toDigits_ne_nil (b := 10) (n := n))
  refine ⟨d, ds, hdigits, by_contra fun hd => ?_⟩
  exact not_mem_toDigits (n := n) (Bool.eq_false_iff.2 hd) (hdigits ▸ List.mem_cons_self)

/-- Offsets with the same text are equal. -/
theorem Offset.text_injective : Function.Injective Offset.text := by
  rintro ⟨m⟩ ⟨n⟩ h
  rw [text, text, String.append_right_inj, ← String.toList_inj] at h
  exact congrArg Offset.mk (toDigits_inj.1 (by simpa using h))

/-- Positions with the same text are equal. -/
theorem Position.text_injective : Function.Injective Position.text := by
  intro p q h
  exact Position.ext (toDigits_inj.1 (String.ofList_inj.1 h))

/-! ### Errors -/

namespace Malformation

/-- The first character of the message of `reason`, where all digits are taken to be `0`. -/
theorem map_head?_message (reason : Malformation) :
    (reason.message.toList.head?.map fun c => if c.isDigit then '0' else c) =
      some (match reason with
        | invalidCharacter _ => 'i'
        | reservedCharacter _ => 'r'
        | emptyGroup => 'e'
        | missingOperand _ => 'o'
        | unexpectedToken _ => 'u'
        | danglingOperands _ => '0'
        | missingEndMark | duplicateEndMark => 'm') := by
  cases reason with
  | danglingOperands count =>
    obtain ⟨d, ds, hdigits, hd⟩ := exists_toDigits_eq_cons count
    delta message
    simp [hdigits, hd]
  | _ =>
    delta message
    simp

/-- Malformations with the same message are equal. -/
theorem message_injective : Function.Injective message := by
  intro x y h
  have hfirst := x.map_head?_message.symm.trans (h ▸ y.map_head?_message)
  -- only two messages start alike, with an `m`
  cases x <;> cases y <;> simp at hfirst
  all_goals
    delta message at h
    simp_all [← String.toList_inj, toDigits_inj]

end Malformation

namespace Error

/-- The first characters of the message of `error`. -/
theorem take_message (error : Error) :
    error.message.toList.take 5 = match error with
      | malformed .. => ['M', 'a', 'l', 'f', 'o']
      | unbalanced _ => ['U', 'n', 'b', 'a', 'l']
      | tooManyStates _ => ['T', 'h', 'e', ' ', 'd']
      | offsetOverflow _ => ['N', 'o', ' ', 'o', 'f']
      | missingRow _ => ['T', 'h', 'e', ' ', 'f'] := by
  cases error <;>
    delta message <;>
    simp

/-- Errors with the same message are equal. -/
theorem message_injective : Function.Injective message := by
  intro x y h
  have htake := x.take_message.symm.trans (h ▸ y.take_message)
  cases x <;> cases y <;> simp at htake <;> delta message at h
  case malformed.malformed o reason p reason' =>
    -- the place ends before the first colon
    have hcut : Nat.toDigits 10 o.bytes ++ ':' :: ' ' :: (reason.message.toList ++ ['.']) =
        Nat.toDigits 10 p.bytes ++ ':' :: ' ' :: (reason'.message.toList ++ ['.']) := by
      simpa [← String.toList_inj, Offset.text] using h
    obtain ⟨hbytes, hbehind⟩ :=
      (append_cons_inj_of_not_mem (not_mem_toDigits rfl) (not_mem_toDigits rfl)).1 hcut
    have hreason : reason.message = reason'.message := by
      simpa [String.toList_inj] using hbehind
    obtain rfl := Malformation.message_injective hreason
    obtain ⟨m⟩ := o
    obtain rfl : m = p.bytes := toDigits_inj.1 hbytes
    rfl
  case unbalanced.unbalanced o p =>
    rw [String.append_left_inj, String.append_right_inj] at h
    rw [Offset.text_injective h]
  case tooManyStates.tooManyStates m n =>
    have hdigits : Nat.toDigits 10 m = Nat.toDigits 10 n := by
      simpa [← String.toList_inj] using h
    rw [toDigits_inj.1 hdigits]
  case offsetOverflow.offsetOverflow o p =>
    rw [String.append_left_inj, String.append_right_inj] at h
    rw [Offset.text_injective h]
  case missingRow.missingRow p q =>
    rw [String.append_left_inj, String.append_right_inj] at h
    rw [Position.text_injective h]

end Error

namespace Event

variable {x y : Event}

/-- The first character of the text of an event. -/
theorem head?_text (x : Event) :
    x.text.toList.head? = some (match x with
      | postfixForm .. | positionCount .. => 'r'
      | newState _ => 'n'
      | transition _ => '\x7b'
      | summary .. => 'd') := by
  cases x <;>
    delta text <;>
    simp [PositionSet.text]

/-- The text of a single step, as that `y` is, is that of no other event. -/
theorem text_eq_text_iff (hy : y.level = .trace) : x.text = y.text ↔ x = y := by
  refine ⟨fun h => ?_, fun h => h ▸ rfl⟩
  have hhead := x.head?_text.symm.trans (h ▸ y.head?_text)
  cases y with
  | newState target =>
    cases x <;> simp at hhead
    case newState state =>
      delta text at h
      rw [PositionSet.text_injective ((String.append_right_inj _).1 h)]
  | transition u =>
    cases x <;> simp at hhead
    case transition t =>
      -- the source ends with its brace, and one character is read between the arrows
      delta text at h
      simp only [String.append_assoc] at h
      obtain ⟨hsource, hrest⟩ := PositionSet.text_append_inj.1 h
      rw [String.append_right_inj, ← String.toList_inj] at hrest
      obtain ⟨hsymbol, htarget⟩ : t.symbol = u.symbol ∧ t.target.text = u.target.text := by
        simpa [String.toList_inj] using hrest
      cases t
      cases u
      cases hsource
      cases hsymbol
      cases PositionSet.text_injective htarget
      rfl
  | postfixForm | positionCount | summary => cases hy

/-- Among the texts of some events that of a single step comes up as often as the step does. -/
theorem count_map_text (hy : y.level = .trace) (events : List Event) :
    (events.map text).count y.text = events.count y := by
  rw [List.count, List.count, List.countP_map]
  refine List.countP_congr fun x _ => ?_
  simp [text_eq_text_iff hy]

end Event

end PositionAutomaton
