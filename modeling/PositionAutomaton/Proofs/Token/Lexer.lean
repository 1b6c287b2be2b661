import Mathlib.Data.String.Basic
import PositionAutomaton.Proofs.Token.Explicit
import PositionAutomaton.Token.Lexer

/-!
# Tokens of a text

The tokens of a text have the kinds its characters are written for (`map_kind_of_scanFrom`),
and the texts on both sides of a place have their tokens on both sides of it
(`scanFrom_append_eq_ok_iff`). The last token ends where the text ends, so that only the
length of the text decides whether there is an offset for the end mark
(`endOffset_eq_ok_iff_of_scan`).
-/

namespace PositionAutomaton

/-- The characters that are written for a token of some `kind`. -/
theorem Kind.ofChar?_eq_some_iff {c : Char} {kind : Kind} :
    ofChar? c = some kind ↔
      match kind with
      | .letter => c.isAlpha = true
      | .opening => c = '('
      | .closing => c = ')'
      | .star => c = '*'
      | .bar => c = '|'
      | .concat | .endMark => False := by
  fun_cases ofChar? c with
  | case1 | case2 | case3 | case4 => cases kind <;> decide
  | case5 c _ _ _ _ halpha => cases kind <;> simp_all
  | case6 c _ _ _ _ halpha => cases kind <;> simp_all

/-- A character `c` that expressions are written with: the letters of ASCII, parentheses and
operators. -/
def Written (c : Char) : Prop :=
  c.isAlpha = true ∨ c ∈ ['(', ')', '*', '|']

instance (c : Char) : Decidable (Written c) :=
  inferInstanceAs (Decidable (_ ∨ _))

/-- The characters that `ofChar?` finds a kind for are those of expressions. -/
theorem Kind.isSome_ofChar?_iff {c : Char} : (ofChar? c).isSome = true ↔ Written c := by
  rw [Written]
  fun_cases ofChar? c with
  | case1 | case2 | case3 | case4 => simp
  | case5 c hopening hclosing hstar hbar halpha => simp [halpha]
  | case6 c hopening hclosing hstar hbar halpha => simp_all

/-- The character `(` is written for the start of a group, and for nothing else. -/
theorem Kind.eq_opening_iff_of_ofChar? {c : Char} {kind : Kind} (h : ofChar? c = some kind) :
    kind = opening ↔ c = '(' := by
  rw [← Option.some_inj, ← h]
  exact ofChar?_eq_some_iff

/-- The character `)` is written for the end of a group, and for nothing else. -/
theorem Kind.eq_closing_iff_of_ofChar? {c : Char} {kind : Kind} (h : ofChar? c = some kind) :
    kind = closing ↔ c = ')' := by
  rw [← Option.some_inj, ← h]
  exact ofChar?_eq_some_iff

/-- Of the kinds that `ofChar?` finds, the starts of groups and bars end no operand. -/
theorem Kind.endsOperand_eq_false_iff_of_ofChar? {c : Char} {kind : Kind}
    (h : ofChar? c = some kind) :
    kind.endsOperand = false ↔ some c ∈ [none, some '(', some '|'] := by
  have hkind := ofChar?_eq_some_iff.1 h
  cases kind with
  | letter =>
    have hne (d : Char) (hd : d.isAlpha = false) : c ≠ d := by
      rintro rfl
      exact absurd hkind (by simp [hd])
    simp [endsOperand, hne '(' rfl, hne '|' rfl]
  | opening | closing | star | bar => simp [endsOperand, hkind]
  | concat | endMark => exact hkind.elim

/-- Of the kinds that `ofChar?` finds, only letters, the ends of groups and stars end an operand. -/
theorem Kind.mem_of_ofChar?_of_endsOperand {c : Char} {kind : Kind} (h : ofChar? c = some kind)
    (hends : kind.endsOperand = true) : c.isAlpha = true ∨ c ∈ [')', '*'] := by
  have hkind := ofChar?_eq_some_iff.1 h
  cases kind with
  | letter => exact .inl hkind
  | closing | star => exact .inr (by simp [hkind])
  | opening | bar | concat | endMark => cases hends

/-- Of the kinds that `ofChar?` finds, the ends of groups and operators start no operand. -/
theorem Kind.startsOperand_eq_false_iff_of_ofChar? {c : Char} {kind : Kind}
    (h : ofChar? c = some kind) :
    kind.startsOperand = false ↔ some c ∈ [none, some ')', some '|', some '*'] := by
  have hkind := ofChar?_eq_some_iff.1 h
  cases kind with
  | letter =>
    have hne (d : Char) (hd : d.isAlpha = false) : c ≠ d := by
      rintro rfl
      exact absurd hkind (by simp [hd])
    simp [startsOperand, hne ')' rfl, hne '|' rfl, hne '*' rfl]
  | opening | closing | star | bar => simp [startsOperand, hkind]
  | concat | endMark => exact hkind.elim

/-- A letter `c` of ASCII is written for a letter. -/
theorem Kind.ofChar?_of_isAlpha {c : Char} (h : c.isAlpha = true) : ofChar? c = some letter :=
  ofChar?_eq_some_iff.2 h

/-- The capital letters of ASCII are the characters from 65 to 90. -/
theorem isUpper_iff_toNat {c : Char} : c.isUpper = true ↔ 65 ≤ c.toNat ∧ c.toNat ≤ 90 :=
  decide_eq_true_iff

/-- In lower case, a capital letter of ASCII is 32 further on; no other character changes. -/
theorem toNat_toLower (c : Char) :
    c.toLower.toNat = if c.isUpper = true then c.toNat + 32 else c.toNat := by
  unfold Char.toLower
  split
  next hupper =>
    have hc : c.val.toNat ≤ 90 := hupper.2
    rw [if_pos (isUpper_iff_toNat.2 hupper)]
    show (c.val + 32).toNat = c.val.toNat + 32
    rw [UInt32.toNat_add]
    show (c.val.toNat + 32) % 2 ^ 32 = c.val.toNat + 32
    omega
  next hupper => rw [if_neg fun h => hupper (isUpper_iff_toNat.1 h)]

namespace Token

/-- The character that a token has for a character `c` of the text, in lower case if case is
folded. -/
def folded (foldCase : Bool) (c : Char) : Char :=
  if foldCase then c.toLower else c

/-- Folding case keeps the length of a character `c`. -/
theorem utf8Size_folded (foldCase : Bool) (c : Char) :
    (folded foldCase c).utf8Size = c.utf8Size := by
  unfold folded
  split
  next =>
    by_cases hupper : c.isUpper = true
    · -- both letters are in the range of ASCII
      obtain ⟨-, hc⟩ := isUpper_iff_toNat.1 hupper
      have hlower : c.toLower.toNat ≤ 127 := by
        rw [toNat_toLower, if_pos hupper]
        omega
      have hsmall : c.toNat ≤ 127 := by omega
      rw [Char.utf8Size_eq_one_iff.2 hlower, Char.utf8Size_eq_one_iff.2 hsmall]
    · rw [Char.toNat_inj.1 ((toNat_toLower c).trans (if_neg hupper))]
  next => rfl

variable {foldCase : Bool} {offset : Offset} {c : Char} {cs ds : List Char}
  {t : Token} {ts : List Token}

/-- A character `c` is a token `t` if it is written for a kind of token. -/
theorem ofChar_eq_ok_iff :
    ofChar foldCase offset c = .ok t ↔
      Kind.ofChar? c = some t.kind ∧ t.value = folded foldCase c ∧ t.offset = offset := by
  obtain ⟨kind, value, start⟩ := t
  rw [ofChar, folded]
  cases Kind.ofChar? c with
  | none => simp
  | some kind =>
    simp only [Except.ok.injEq, Token.mk.injEq, Option.some.injEq]
    tauto

/-- The tokens of a text that is not empty are that of its first character `c` and those of the
other ones. -/
theorem scanFrom_cons_eq_ok_iff :
    scanFrom foldCase offset (c :: cs) = .ok ts ↔
      ∃ t us, ofChar foldCase offset c = .ok t ∧
        scanFrom foldCase ⟨offset.bytes + c.utf8Size⟩ cs = .ok us ∧ ts = t :: us := by
  simp only [scanFrom, bind_eq_ok_iff, pure_eq_ok, Except.ok.injEq, exists_and_left,
    eq_comm (a := ts)]

/-- A text of one character `c` has one token. -/
theorem scanFrom_singleton_eq_ok_iff :
    scanFrom foldCase offset [c] = .ok ts ↔ ∃ t, ofChar foldCase offset c = .ok t ∧ ts = [t] := by
  rw [scanFrom_cons_eq_ok_iff]
  simp [scanFrom, eq_comm]

/-- The tokens of a text are those of its first part `cs` followed by those of the rest `ds`. -/
theorem scanFrom_append_eq_ok_iff :
    scanFrom foldCase offset (cs ++ ds) = .ok ts ↔
      ∃ us vs, scanFrom foldCase offset cs = .ok us ∧
        scanFrom foldCase ⟨offset.bytes + String.utf8Len cs⟩ ds = .ok vs ∧ ts = us ++ vs := by
  induction cs generalizing offset ts with
  | nil => simp [scanFrom]
  | cons c cs ih =>
    -- the second part starts behind both the first character and the rest of the first part
    have hoffset : offset.bytes + String.utf8Len (c :: cs) =
        offset.bytes + c.utf8Size + String.utf8Len cs := by
      rw [String.utf8Len_cons]
      omega
    rw [List.cons_append, scanFrom_cons_eq_ok_iff, hoffset]
    constructor
    · rintro ⟨t, ts, ht, hts, rfl⟩
      obtain ⟨us, vs, hus, hvs, rfl⟩ := ih.1 hts
      exact ⟨t :: us, vs, scanFrom_cons_eq_ok_iff.2 ⟨t, us, ht, hus, rfl⟩, hvs, rfl⟩
    · rintro ⟨ts, vs, hts, hvs, rfl⟩
      obtain ⟨t, us, ht, hus, rfl⟩ := scanFrom_cons_eq_ok_iff.1 hts
      exact ⟨t, us ++ vs, ht, ih.2 ⟨us, vs, hus, hvs, rfl⟩, rfl⟩

/-- A text `cs` has tokens if each of its characters is written for a kind of token. -/
theorem exists_scanFrom_eq_ok_iff :
    (∃ ts, scanFrom foldCase offset cs = .ok ts) ↔ ∀ c ∈ cs, (Kind.ofChar? c).isSome = true := by
  induction cs generalizing offset with
  | nil => simp [scanFrom]
  | cons c cs ih =>
    simp only [scanFrom_cons_eq_ok_iff, List.forall_mem_cons]
    constructor
    · rintro ⟨-, t, us, ht, hus, rfl⟩
      exact ⟨Option.isSome_of_eq_some (ofChar_eq_ok_iff.1 ht).1, ih.1 ⟨us, hus⟩⟩
    · rintro ⟨hc, hcs⟩
      obtain ⟨kind, hkind⟩ := Option.isSome_iff_exists.1 hc
      obtain ⟨us, hus⟩ := ih.2 hcs
      exact ⟨_, ⟨kind, folded foldCase c, offset⟩, us,
        ofChar_eq_ok_iff.2 ⟨hkind, rfl, rfl⟩, hus, rfl⟩

/-- The first character `c` that is no token is an error at its place. -/
theorem scanFrom_eq_error (hcs : ∀ d ∈ cs, Written d) (hc : ¬Written c) :
    scanFrom foldCase offset (cs ++ c :: ds) =
      .error (.malformed ⟨offset.bytes + String.utf8Len cs⟩
        (if c = endSign then .reservedCharacter c else .invalidCharacter c)) := by
  induction cs generalizing offset with
  | nil =>
    have hnone : Kind.ofChar? c = none := by
      rwa [← Kind.isSome_ofChar?_iff, Option.not_isSome_iff_eq_none] at hc
    simp [scanFrom, ofChar, hnone]
  | cons d cs ih =>
    obtain ⟨hd, hcs⟩ := List.forall_mem_cons.1 hcs
    obtain ⟨kind, hkind⟩ := Option.isSome_iff_exists.1 (Kind.isSome_ofChar?_iff.2 hd)
    have hd : ofChar foldCase offset d = .ok ⟨kind, folded foldCase d, offset⟩ :=
      ofChar_eq_ok_iff.2 ⟨hkind, rfl, rfl⟩
    have hoffset : offset.bytes + d.utf8Size + String.utf8Len cs =
        offset.bytes + String.utf8Len (d :: cs) := by
      rw [String.utf8Len_cons]
      omega
    rw [List.cons_append, scanFrom, hd, ok_bind, ih hcs, error_bind, hoffset]

/-- The tokens of a text have the kinds that `Kind.ofChar?` finds for its characters. -/
theorem map_kind_of_scanFrom (h : scanFrom foldCase offset cs = .ok ts) :
    ts.map (some ·.kind) = cs.map Kind.ofChar? := by
  induction cs generalizing offset ts with
  | nil =>
    cases h
    rfl
  | cons c cs ih =>
    obtain ⟨t, us, ht, hus, rfl⟩ := scanFrom_cons_eq_ok_iff.1 h
    rw [List.map_cons, List.map_cons, ih hus, (ofChar_eq_ok_iff.1 ht).1]

/-- The tokens of a text have the characters of it, `folded`. -/
theorem map_value_of_scanFrom (h : scanFrom foldCase offset cs = .ok ts) :
    ts.map (·.value) = cs.map (folded foldCase) := by
  induction cs generalizing offset ts with
  | nil =>
    cases h
    rfl
  | cons c cs ih =>
    obtain ⟨t, us, ht, hus, rfl⟩ := scanFrom_cons_eq_ok_iff.1 h
    rw [List.map_cons, List.map_cons, ih hus, (ofChar_eq_ok_iff.1 ht).2.1]

/-- Before a token `t` of a text there are the bytes of the characters before it. -/
theorem offset_of_getElem?_scanFrom (h : scanFrom foldCase offset cs = .ok ts) {i : Nat}
    (ht : ts[i]? = some t) : t.offset = ⟨offset.bytes + String.utf8Len (cs.take i)⟩ := by
  induction cs generalizing offset ts i with
  | nil =>
    cases h
    cases ht
  | cons c cs ih =>
    obtain ⟨s, us, hs, hus, rfl⟩ := scanFrom_cons_eq_ok_iff.1 h
    cases i with
    | zero =>
      cases ht
      exact (ofChar_eq_ok_iff.1 hs).2.2
    | succ i =>
      rw [ih hus ht, List.take_succ_cons, String.utf8Len_cons]
      simp only [Offset.mk.injEq]
      omega

/-- Every token `t` of a text has the kind that one of its characters is written for. -/
theorem exists_ofChar?_of_mem_scanFrom (h : scanFrom foldCase offset cs = .ok ts) (ht : t ∈ ts) :
    ∃ c ∈ cs, Kind.ofChar? c = some t.kind := by
  have hmem : some t.kind ∈ ts.map (some ·.kind) := List.mem_map_of_mem ht
  rw [map_kind_of_scanFrom h] at hmem
  exact List.mem_map.1 hmem

/-- No character is written for an end mark. -/
theorem kind_ne_endMark_of_scanFrom (h : scanFrom foldCase offset cs = .ok ts) :
    ∀ t ∈ ts, t.kind ≠ .endMark := by
  intro t ht hend
  obtain ⟨c, -, hc⟩ := exists_ofChar?_of_mem_scanFrom h ht
  rw [hend] at hc
  exact Kind.ofChar?_eq_some_iff.1 hc

/-- No character of an expression becomes `concatSign` in lower case. -/
theorem folded_ne_concatSign {c : Char} {kind : Kind} (h : Kind.ofChar? c = some kind) :
    folded foldCase c ≠ concatSign := by
  intro hfolded
  have hsign : c = concatSign := by
    unfold folded at hfolded
    split at hfolded
    next =>
      -- the sign is not 32 further on than a capital letter
      have hnat := congrArg Char.toNat hfolded
      rw [toNat_toLower] at hnat
      split at hnat
      next hupper =>
        obtain ⟨hle, -⟩ := isUpper_iff_toNat.1 hupper
        rw [show concatSign.toNat = 46 from rfl] at hnat
        omega
      next => exact Char.toNat_inj.1 hnat
    next => exact hfolded
  rw [hsign] at h
  cases h

/-- No character is written for a concatenation. -/
theorem kind_ne_concat_of_scanFrom (h : scanFrom foldCase offset cs = .ok ts) :
    ∀ t ∈ ts, t.kind ≠ .concat := by
  intro t ht hconcat
  obtain ⟨c, -, hc⟩ := exists_ofChar?_of_mem_scanFrom h ht
  rw [hconcat] at hc
  exact Kind.ofChar?_eq_some_iff.1 hc

/-- Parts `us` and `vs` of the tokens of a text are the tokens of parts of the text. -/
theorem exists_of_scanFrom_eq_append {us vs : List Token}
    (h : scanFrom foldCase offset cs = .ok (us ++ vs)) :
    ∃ as bs, cs = as ++ bs ∧ scanFrom foldCase offset as = .ok us ∧
      scanFrom foldCase ⟨offset.bytes + String.utf8Len as⟩ bs = .ok vs := by
  have hlength : cs.length = us.length + vs.length := by
    simpa using (congrArg List.length (map_kind_of_scanFrom h)).symm
  rw [← List.take_append_drop us.length cs] at h
  obtain ⟨us', vs', hus, hvs, hsplit⟩ := scanFrom_append_eq_ok_iff.1 h
  have hus' : us'.length = us.length := by
    have htake := congrArg List.length (map_kind_of_scanFrom hus)
    simp only [List.length_map, List.length_take] at htake
    omega
  obtain ⟨rfl, rfl⟩ := List.append_inj hsplit hus'.symm
  exact ⟨_, _, (List.take_append_drop _ cs).symm, hus, hvs⟩

/-- Where a token `t` of a text stands, the text has a character it is written for. -/
theorem exists_of_scanFrom_eq_append_cons {us vs : List Token}
    (h : scanFrom foldCase offset cs = .ok (us ++ t :: vs)) :
    ∃ as c bs, cs = as ++ c :: bs ∧ Kind.ofChar? c = some t.kind ∧ t.value = folded foldCase c ∧
      t.offset = ⟨offset.bytes + String.utf8Len as⟩ ∧ scanFrom foldCase offset as = .ok us ∧
      scanFrom foldCase ⟨offset.bytes + String.utf8Len as + c.utf8Size⟩ bs = .ok vs := by
  obtain ⟨as, bs, rfl, has, hbs⟩ := exists_of_scanFrom_eq_append h
  cases bs with
  | nil => cases hbs
  | cons c bs =>
    obtain ⟨s, ws, hs, hws, hsplit⟩ := scanFrom_cons_eq_ok_iff.1 hbs
    obtain ⟨rfl, rfl⟩ := List.cons.inj hsplit
    obtain ⟨hkind, hvalue, hoffset⟩ := ofChar_eq_ok_iff.1 hs
    exact ⟨as, c, bs, rfl, hkind, hvalue, hoffset, has, hws⟩

/-- No token of a text is written as `concatSign`. -/
theorem value_ne_concatSign_of_scanFrom (h : scanFrom foldCase offset cs = .ok ts) :
    ∀ t ∈ ts, t.value ≠ concatSign := by
  intro t ht
  obtain ⟨us, vs, rfl⟩ := List.append_of_mem ht
  obtain ⟨as, c, bs, -, hkind, hvalue, -⟩ := exists_of_scanFrom_eq_append_cons h
  rw [hvalue]
  exact folded_ne_concatSign hkind

/-- The last token of a text `cs` has the kind that the last character is written for. -/
theorem map_kind_getLast?_of_scanFrom (h : scanFrom foldCase offset cs = .ok ts) :
    ts.getLast?.map (some ·.kind) = cs.getLast?.map Kind.ofChar? := by
  rw [← List.getLast?_map, map_kind_of_scanFrom h, List.getLast?_map]

/-- No operand ends at the end of a text `cs` that is empty or ends with the start of a group or
with a bar, and of no other text. -/
theorem getLast?_elim_endsOperand_iff (h : scanFrom foldCase offset cs = .ok ts) :
    ts.getLast?.elim true (!·.kind.endsOperand) = true ↔
      cs.getLast? ∈ [none, some '(', some '|'] := by
  have hlast := map_kind_getLast?_of_scanFrom h
  cases hts : ts.getLast? with
  | none => cases hcs : cs.getLast? <;> simp [hts, hcs] at hlast ⊢
  | some t =>
    rw [hts, Option.map_some, eq_comm, Option.map_eq_some_iff] at hlast
    obtain ⟨c, hc, hkind⟩ := hlast
    rw [hc, Option.elim_some, ← Kind.endsOperand_eq_false_iff_of_ofChar? hkind]
    simp

/-- No operand starts at the start of a text `cs` that is empty or starts with the end of a group or
with an operator, and of no other text. -/
theorem head?_elim_startsOperand_iff (h : scanFrom foldCase offset cs = .ok ts) :
    ts.head?.elim true (!·.kind.startsOperand) = true ↔
      cs.head? ∈ [none, some ')', some '|', some '*'] := by
  have hhead := congrArg List.head? (map_kind_of_scanFrom h)
  rw [List.head?_map, List.head?_map] at hhead
  cases hts : ts.head? with
  | none => cases hcs : cs.head? <;> simp [hts, hcs] at hhead ⊢
  | some t =>
    rw [hts, Option.map_some, eq_comm, Option.map_eq_some_iff] at hhead
    obtain ⟨c, hc, hkind⟩ := hhead
    rw [hc, Option.elim_some, ← Kind.startsOperand_eq_false_iff_of_ofChar? hkind]
    simp

/-- The tokens of a text come from places before its end. -/
theorem offset_lt_of_scanFrom (h : scanFrom foldCase offset cs = .ok ts) :
    ∀ t ∈ ts, t.offset.bytes < offset.bytes + String.utf8Len cs := by
  induction cs generalizing offset ts with
  | nil =>
    cases h
    simp
  | cons c cs ih =>
    obtain ⟨s, us, hs, hus, rfl⟩ := scanFrom_cons_eq_ok_iff.1 h
    obtain ⟨-, -, hoffset⟩ := ofChar_eq_ok_iff.1 hs
    have hpos := c.utf8Size_pos
    rw [String.utf8Len_cons, List.forall_mem_cons, hoffset]
    refine ⟨by omega, fun t ht => ?_⟩
    have hlt := ih hus t ht
    simp only at hlt
    omega

/-- Behind the last token `t` of a text no byte of it is left. -/
theorem offset_of_scanFrom (h : scanFrom foldCase offset cs = .ok ts)
    (ht : ts.getLast? = some t) :
    t.offset.bytes + t.value.utf8Size = offset.bytes + String.utf8Len cs := by
  induction cs generalizing offset ts with
  | nil =>
    cases h
    cases ht
  | cons c cs ih =>
    obtain ⟨s, us, hs, hus, rfl⟩ := scanFrom_cons_eq_ok_iff.1 h
    rw [List.getLast?_cons] at ht
    cases hlast : us.getLast? with
    | none =>
      -- the first token is the last one
      obtain rfl : us = [] := List.getLast?_eq_none_iff.1 hlast
      obtain rfl : s = t := by simpa using ht
      obtain rfl : cs = [] := by simpa using (map_kind_of_scanFrom hus).symm
      obtain ⟨-, hvalue, hoffset⟩ := ofChar_eq_ok_iff.1 hs
      simp [hvalue, hoffset, utf8Size_folded]
    | some u =>
      obtain rfl : u = t := by simpa [hlast] using ht
      rw [ih hus hlast, String.utf8Len_cons]
      simp only
      omega

/-- The tokens of a text `s` end where `s` ends. -/
theorem byteEnd_of_scan {s : String} (h : scan foldCase s = .ok ts) :
    byteEnd ts = s.utf8ByteSize := by
  rw [← String.utf8Len_toList, byteEnd]
  cases hlast : ts.getLast? with
  | none =>
    obtain rfl : ts = [] := List.getLast?_eq_none_iff.1 hlast
    have hnil : s.toList = [] := by simpa using (map_kind_of_scanFrom h).symm
    rw [hnil]
    rfl
  | some t => simpa using offset_of_scanFrom h hlast

/-- There is an offset for the end of a text `s` if the length of `s` is below the bound. -/
theorem endOffset_eq_ok_iff_of_scan {s : String} (h : scan foldCase s = .ok ts) {last : Offset} :
    endOffset ts = .ok last ↔ s.utf8ByteSize < Offset.bound ∧ last = ⟨s.utf8ByteSize⟩ := by
  rw [endOffset_eq_ok_iff, byteEnd_of_scan h]

end Token

end PositionAutomaton
