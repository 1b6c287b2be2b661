import PositionAutomaton.Proofs.Token.Explicit
import PositionAutomaton.Proofs.Token.Lexer

/-!
# Changed letters

Which letter a token is does not matter for the concatenations and the end mark of a sequence
(`explicit_map_mapLetter`). Folding case only changes the letters (`scan_true`).
-/

namespace PositionAutomaton

namespace Token

variable (f : Char → Char) {s t : Token} {ts us : List Token}

/-- The token `t` with `f` applied to its letter. Other tokens than letters keep their character. -/
def mapLetter (t : Token) : Token :=
  if t.kind = .letter then { t with value := f t.value } else t

/-- A changed letter `t` is a letter. -/
@[simp]
theorem kind_mapLetter (t : Token) : (t.mapLetter f).kind = t.kind := by
  rw [mapLetter]
  split <;> rfl

/-- A changed letter `t` keeps its place. -/
@[simp]
theorem offset_mapLetter (t : Token) : (t.mapLetter f).offset = t.offset := by
  rw [mapLetter]
  split <;> rfl

/-- The character of a letter `t` is changed by `f`. -/
theorem value_mapLetter_of_letter (h : t.kind = .letter) : (t.mapLetter f).value = f t.value := by
  rw [mapLetter, if_pos h]

/-- A token `t` that is no letter is not changed. -/
theorem mapLetter_of_ne_letter (h : t.kind ≠ .letter) : t.mapLetter f = t :=
  if_neg h

/-- Concatenations are not changed. -/
@[simp]
theorem mapLetter_concat (offset : Offset) : (concat offset).mapLetter f = concat offset := rfl

/-- End marks are not changed. -/
@[simp]
theorem mapLetter_endMark (offset : Offset) : (endMark offset).mapLetter f = endMark offset := rfl

/-- Tokens `s` and `t` adjoin as before. -/
@[simp]
theorem adjoins_mapLetter_iff : Adjoins (s.mapLetter f) (t.mapLetter f) ↔ Adjoins s t := by
  simp [Adjoins]

/-- Sequences `ts` and `us` meet as before. -/
theorem seam_map_mapLetter (ts us : List Token) :
    seam (ts.map (mapLetter f)) (us.map (mapLetter f)) = (seam ts us).map (mapLetter f) := by
  rw [seam, seam, List.getLast?_map, List.head?_map]
  cases ts.getLast? with
  | none => rfl
  | some s =>
    cases us.head? with
    | none => rfl
    | some t => by_cases h : Adjoins s t <;> simp [h]

/-- The concatenations of a sequence `ts` stay where they are. -/
theorem withConcats_map_mapLetter (ts : List Token) :
    withConcats (ts.map (mapLetter f)) = (withConcats ts).map (mapLetter f) := by
  induction ts with
  | nil => rfl
  | cons t ts ih =>
    have hseam := seam_map_mapLetter f [t] ts
    rw [List.map_singleton] at hseam
    rw [List.map_cons, withConcats_cons, withConcats_cons, ih, hseam]
    simp

/-- If letters keep their length under `f`, a sequence is made explicit as before. -/
theorem explicit_map_mapLetter (hf : ∀ c, (f c).utf8Size = c.utf8Size) (ts : List Token) :
    explicit (ts.map (mapLetter f)) = (explicit ts).map (List.map (mapLetter f)) := by
  have hsize (t : Token) : (t.mapLetter f).value.utf8Size = t.value.utf8Size := by
    rw [mapLetter]
    split
    next => exact hf t.value
    next => rfl
  have hend : endOffset (ts.map (mapLetter f)) = endOffset ts := by
    rw [endOffset, endOffset, List.getLast?_map]
    cases ts.getLast? with
    | none => rfl
    | some t => simp only [Option.map_some, offset_mapLetter, hsize]
  rw [explicit, explicit, hend, bind_map, withConcats_map_mapLetter]
  simp

/-- With case folded, a character `c` is the same token with its letter in lower case. -/
theorem ofChar_true (offset : Offset) (c : Char) :
    ofChar true offset c = (ofChar false offset c).map (mapLetter Char.toLower) := by
  rw [ofChar, ofChar]
  cases hkind : Kind.ofChar? c with
  | none => rfl
  | some kind =>
    have hchar := Kind.ofChar?_eq_some_iff.1 hkind
    cases kind with
    | letter => rfl
    | opening | closing | star | bar =>
      obtain rfl := hchar
      rfl
    | concat | endMark => exact hchar.elim

/-- With case folded, the tokens of characters `cs` are the same with their letters in lower
case. -/
theorem scanFrom_true (offset : Offset) (cs : List Char) :
    scanFrom true offset cs =
      (scanFrom false offset cs).map (List.map (mapLetter Char.toLower)) := by
  induction cs generalizing offset with
  | nil => rfl
  | cons c cs ih =>
    simp only [scanFrom, ofChar_true, ih, map_bind, bind_map]
    rfl

/-- With case folded, the tokens of a text `s` are the same with their letters in lower case. -/
theorem scan_true (s : String) :
    scan true s = (scan false s).map (List.map (mapLetter Char.toLower)) :=
  scanFrom_true {} s.toList

end Token

end PositionAutomaton
