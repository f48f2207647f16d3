import MethodCompiler.Json.Parser
import MethodCompiler.Json.Printer

/-!
# Reading back written documents

A document that is written as text is read back as it was, except that a control character without a
short escape comes back as a code unit. First the text falls into the tokens of the document, then the
tokens give the document.
-/

namespace MethodCompiler

/-! ### Strings -/

namespace StringPiece

/-- A control character that has no short escape. -/
def isControl (c : Char) : Bool :=
  c.toNat < 32 && !(c == '\x08' || c == '\x0c' || c == '\n' || c == '\r' || c == '\t')

/-- The piece as which the written form of a piece is read. -/
def reread : StringPiece → StringPiece
  | unit code => unit code
  | char c => if isControl c then unit (UInt16.ofNat c.toNat) else char c

end StringPiece

namespace Json.Token

variable {rest cs : List Char} {ts : List Token} {t : Token}

private theorem hexDigit?_digitChar : ∀ d < 16, hexDigit? (Nat.digitChar d) = some d := by decide

private theorem hexUnit?_hexDigits {code : Nat} (h : code < UInt16.size) :
    hexUnit? (Nat.digitChar (code / 4096 % 16)) (Nat.digitChar (code / 256 % 16))
      (Nat.digitChar (code / 16 % 16)) (Nat.digitChar (code % 16)) = some (UInt16.ofNat code) := by
  have hd (n : Nat) : hexDigit? (Nat.digitChar (n % 16)) = some (n % 16) :=
    hexDigit?_digitChar _ (Nat.mod_lt _ (by decide))
  have hsum : (code / 4096 % 16 * 16 + code / 256 % 16) * 256 + (code / 16 % 16 * 16 + code % 16) =
      code := by
    rw [UInt16.size] at h
    omega
  simp only [hexUnit?, hd, bind, Option.bind, pure, hsum]

private theorem stringBody?_unit {code : Nat} (h : code < UInt16.size) (rest : List Char) :
    stringBody? ('\\' :: 'u' :: StringPiece.hexDigits code ++ rest) =
      (stringBody? rest).map fun (ps, rest) ↦ (.unit (UInt16.ofNat code) :: ps, rest) := by
  simp only [StringPiece.hexDigits, List.map_cons, List.map_nil, List.cons_append, List.nil_append,
    stringBody?, hexUnit?_hexDigits h]
  cases stringBody? rest <;> rfl

private theorem stringBody?_escape {e c : Char} (he : e ≠ 'u') (hc : shortEscape? e = some c)
    (rest : List Char) : stringBody? ('\\' :: e :: rest) =
      (stringBody? rest).map fun (ps, rest) ↦ (.char c :: ps, rest) := by
  rw [stringBody?]
  · rw [hc]
    cases stringBody? rest <;> rfl
  · exact fun _ _ _ _ _ hu ↦ absurd hu he

private theorem stringBody?_plain {c : Char} (hquote : c ≠ '"') (hback : c ≠ '\\') (hc : ¬c.toNat < 32)
    (rest : List Char) : stringBody? (c :: rest) =
      (stringBody? rest).map fun (ps, rest) ↦ (.char c :: ps, rest) := by
  rw [stringBody?]
  · rw [if_neg (by simp [hback, hc])]
    cases stringBody? rest <;> rfl
  · exact hquote
  · exact fun _ _ _ _ _ h ↦ absurd h hback
  · exact fun _ _ h ↦ absurd h hback

/-- Each piece of a string is read by itself. -/
private theorem stringBody?_chars (p : StringPiece) (rest : List Char) :
    stringBody? (p.chars ++ rest) =
      (stringBody? rest).map fun (ps, rest) ↦ (p.reread :: ps, rest) := by
  unfold StringPiece.chars
  split
  · next code =>
    rw [stringBody?_unit code.toNat_lt rest, UInt16.ofNat_toNat]
    rfl
  iterate 7
    · exact stringBody?_escape (by decide) rfl rest
  · next c hquote hback hb hf hn hr ht =>
    split
    · next hc =>
      have hcontrol : StringPiece.isControl c = true := by
        simpa [StringPiece.isControl, hc] using ⟨⟨⟨⟨hb, hf⟩, hn⟩, hr⟩, ht⟩
      have hreread : StringPiece.reread (.char c) = .unit (UInt16.ofNat c.toNat) := if_pos hcontrol
      rw [stringBody?_unit (Nat.lt_trans hc (by decide)) rest, hreread]
    · next hc =>
      have hreread : StringPiece.reread (.char c) = .char c := by
        simp [StringPiece.reread, StringPiece.isControl, hc]
      rw [hreread]
      exact stringBody?_plain hquote hback hc rest

private theorem stringBody?_flatMap (s : List StringPiece) (rest : List Char) :
    stringBody? (s.flatMap StringPiece.chars ++ '"' :: rest) = some (s.map .reread, rest) := by
  induction s with
  | nil => rfl
  | cons p s ih => rw [List.flatMap_cons, List.append_assoc, stringBody?_chars, ih]; rfl

/-! ### Numbers -/

end Json.Token

/-- A number as JSON allows it: some digits before the point, without a leading zero, and some in an
exponent. -/
structure NumberToken.Valid (n : NumberToken) : Prop where
  whole_ne_nil : n.whole ≠ []
  whole : ∀ c ∈ n.whole, c.isDigit = true
  leading : n.whole.head? = some '0' → n.whole.length ≤ 1
  fraction : ∀ c ∈ n.fraction, c.isDigit = true
  exponent : ∀ negative ds, n.exponent = some (negative, ds) → ds ≠ [] ∧ ∀ c ∈ ds, c.isDigit = true

namespace Json.Token

variable {rest cs : List Char} {ts : List Token} {t : Token}

/-- Text that may follow a value: the end, a comma or a closing bracket. -/
def Follows (rest : List Char) : Prop := ∀ c ∈ rest.head?, c = ',' ∨ c = ']' ∨ c = '\x7d'

private theorem Follows.digit (h : Follows rest) : ∀ c ∈ rest.head?, c.isDigit = false := by
  intro c hc
  rcases h c hc with rfl | rfl | rfl <;> rfl

private theorem takeWhile_digits {ds : List Char} (hds : ∀ c ∈ ds, c.isDigit = true)
    (hrest : ∀ c ∈ rest.head?, c.isDigit = false) :
    (ds ++ rest).takeWhile Char.isDigit = ds ∧ (ds ++ rest).dropWhile Char.isDigit = rest := by
  rw [List.takeWhile_append_of_pos hds, List.dropWhile_append_of_pos hds]
  cases rest with
  | nil => simp
  | cons c rest => simp [hrest c rfl]

/-- The exponent in the written form of a number. -/
def exponentChars : Option (Bool × List Char) → List Char
  | some (negative, digits) => 'e' :: (if negative then '-' else '+') :: digits
  | none => []

private theorem exponent?_exponentChars {e : Option (Bool × List Char)} (hrest : Follows rest)
    (he : ∀ negative ds, e = some (negative, ds) → ds ≠ [] ∧ ∀ c ∈ ds, c.isDigit = true) :
    exponent? (exponentChars e ++ rest) = some (e, rest) := by
  cases e with
  | none =>
    rw [exponentChars, List.nil_append]
    cases rest with
    | nil => rfl
    | cons c rest => rcases hrest c rfl with rfl | rfl | rfl <;> rfl
  | some e =>
    obtain ⟨negative, ds⟩ := e
    obtain ⟨hne, hds⟩ := he negative ds rfl
    obtain ⟨htake, hdrop⟩ := takeWhile_digits hds hrest.digit
    cases negative <;> simp [exponentChars, exponent?, htake, hdrop, hne]

/-- The written form of a number after its sign. -/
def unsignedChars (n : NumberToken) : List Char :=
  n.whole ++ ((if n.fraction.isEmpty then [] else '.' :: n.fraction) ++ exponentChars n.exponent)

private theorem number?_unsignedChars {n : NumberToken} (hn : n.Valid) (hrest : Follows rest) :
    number? n.negative (unsignedChars n ++ rest) = some (n, rest) := by
  obtain ⟨negative, whole, fraction, exponent⟩ := n
  obtain ⟨hne, hwhole, hleading, hfraction, hvalid⟩ := hn
  simp only at hne hwhole hleading hfraction hvalid
  have hexponent := exponent?_exponentChars hrest hvalid
  -- what stands behind the digits of a part is neither a digit nor a point
  have hbehind : ∀ c ∈ (exponentChars exponent ++ rest).head?, c.isDigit = false ∧ c ≠ '.' := by
    intro c hc
    cases exponent with
    | none => rcases hrest c hc with rfl | rfl | rfl <;> exact ⟨rfl, by decide⟩
    | some e =>
      cases hc
      exact ⟨rfl, by decide⟩
  have hguard : (whole.isEmpty || whole.head? == some '0' && decide (1 < whole.length)) = false := by
    simp only [Bool.or_eq_false_iff, List.isEmpty_eq_false_iff, Bool.and_eq_false_imp, beq_iff_eq,
      decide_eq_false_iff_not, Nat.not_lt]
    exact ⟨hne, hleading⟩
  rw [unsignedChars, number?]
  simp only [List.append_assoc]
  cases fraction with
  | nil =>
    obtain ⟨htake, hdrop⟩ := takeWhile_digits hwhole fun c hc ↦ (hbehind c hc).1
    simp only [List.isEmpty_nil, if_true, List.nil_append, htake, hdrop, hguard, Bool.false_eq_true,
      if_false]
    split
    · next heq => exact absurd rfl (hbehind '.' (by rw [heq]; rfl)).2
    · simp only [bind, Option.bind, hexponent, pure]
  | cons d ds =>
    have hpoint : ∀ c ∈ ('.' :: (d :: ds ++ (exponentChars exponent ++ rest))).head?,
        c.isDigit = false := by
      rintro c ⟨⟩
      rfl
    obtain ⟨htake, hdrop⟩ := takeWhile_digits hwhole hpoint
    obtain ⟨htake', hdrop'⟩ := takeWhile_digits hfraction fun c hc ↦ (hbehind c hc).1
    simp only [List.cons_append] at htake hdrop htake' hdrop'
    simp only [List.isEmpty_cons, Bool.false_eq_true, if_false, List.cons_append, htake, hdrop, hguard,
      htake', hdrop', bind, Option.bind, hexponent, pure]

/-! ### Tokens -/

private theorem first?_string (s : List StringPiece) (rest : List Char) :
    first? (stringChars s ++ rest) = some (.string (s.map .reread), rest) := by
  have hchars : stringChars s ++ rest = '"' :: (s.flatMap StringPiece.chars ++ '"' :: rest) := by
    simp only [stringChars, List.cons_append, List.append_assoc, List.nil_append]
  rw [hchars]
  show (stringBody? _).map _ = _
  rw [stringBody?_flatMap]
  rfl

private theorem first?_digit {c : Char} (hc : c.isDigit = true) (cs : List Char) :
    first? (c :: cs) = (number? false (c :: cs)).map fun (n, rest) ↦ (.number n, rest) := by
  rw [first?]
  all_goals
    intro _ h
    rw [(List.cons.inj h).1] at hc
    cases hc

private theorem chars_eq (n : NumberToken) :
    n.chars = (if n.negative then ['-'] else []) ++ unsignedChars n := by
  obtain ⟨negative, whole, fraction, exponent⟩ := n
  cases exponent <;> simp [NumberToken.chars, unsignedChars, exponentChars]

private theorem first?_number {n : NumberToken} (hn : n.Valid) (hrest : Follows rest) :
    first? (n.chars ++ rest) = some (.number n, rest) := by
  have hread := number?_unsignedChars hn hrest
  rw [chars_eq, List.append_assoc]
  cases hnegative : n.negative with
  | true =>
    rw [if_pos rfl, List.singleton_append]
    show (number? true _).map _ = _
    rw [← hnegative, hread]
    rfl
  | false =>
    rw [if_neg Bool.false_ne_true, List.nil_append]
    obtain ⟨c, cs, hcs⟩ := List.exists_cons_of_ne_nil hn.whole_ne_nil
    rw [hnegative] at hread
    simp only [unsignedChars, hcs, List.cons_append] at hread ⊢
    rw [first?_digit (hn.whole c (by rw [hcs]; exact List.mem_cons_self)), hread]
    rfl

/-- A text falls into tokens, however much fuel there is. -/
def Lexes (cs : List Char) (ts : List Token) : Prop :=
  ∀ fuel, cs.length < fuel → scanFrom fuel cs = some ts

private theorem Lexes.nil : Lexes [] [] := by
  intro fuel h
  cases fuel with
  | zero => cases h
  | succ fuel => rfl

private theorem Lexes.cons {c : Char} (hfirst : first? (c :: cs ++ rest) = some (t, rest))
    (hblank : isBlank c = false) (h : Lexes rest ts) : Lexes (c :: cs ++ rest) (t :: ts) := by
  intro fuel hfuel
  cases fuel with
  | zero => cases hfuel
  | succ fuel =>
    rw [List.cons_append, scanFrom, List.dropWhile_cons_of_neg (by simp [hblank])]
    rw [List.cons_append] at hfirst
    simp only [hfirst, bind, Option.bind]
    rw [h fuel (by simp at hfuel; omega)]
    rfl

private theorem Lexes.single {c : Char} (hfirst : first? (c :: rest) = some (t, rest))
    (hblank : isBlank c = false) (h : Lexes rest ts) : Lexes (c :: rest) (t :: ts) := by
  have hcons : first? (c :: [] ++ rest) = some (t, rest) := hfirst
  exact h.cons hcons hblank

end Json.Token

/-! ### Documents -/

namespace Json

open Token

mutual

/-- The document as which the text of a document is read. -/
def reread : Json → Json
  | string s => string (s.map .reread)
  | array items => array (rereadItems items)
  | object fields => object (rereadFields fields)
  | j => j

def rereadItems : List Json → List Json
  | [] => []
  | j :: rest => j.reread :: rereadItems rest

def rereadFields : List (List StringPiece × Json) → List (List StringPiece × Json)
  | [] => []
  | (name, j) :: rest => (name.map .reread, j.reread) :: rereadFields rest

end

mutual

/-- The numbers of a document. -/
def numbers : Json → List NumberToken
  | number n => [n]
  | array items => itemNumbers items
  | object fields => fieldNumbers fields
  | _ => []

def itemNumbers : List Json → List NumberToken
  | [] => []
  | j :: rest => j.numbers ++ itemNumbers rest

def fieldNumbers : List (List StringPiece × Json) → List NumberToken
  | [] => []
  | (_, j) :: rest => j.numbers ++ fieldNumbers rest

end

variable {j : Json} {js : List Json} {fs : List (List StringPiece × Json)} {name : List StringPiece}
  {cs cs' : List Char} {ts : List Token}

/-- A text falls into tokens that make up a document, wherever a value may stand. -/
def ReadAs (cs : List Char) (j : Json) : Prop :=
  ∃ ts, (∀ rest rts, Follows rest → Lexes rest rts → Lexes (cs ++ rest) (ts ++ rts)) ∧
    ∀ fuel rts, ts.length ≤ fuel → value? fuel (ts ++ rts) = some (j, rts)

/-- A text falls into tokens that make up the elements of an array, before its closing bracket. -/
def ItemsReadAs (cs : List Char) (js : List Json) : Prop :=
  ∃ ts, (∀ rest rts, Lexes (']' :: rest) rts → Lexes (cs ++ ']' :: rest) (ts ++ rts)) ∧
    ∀ fuel rts, ts.length < fuel → items? fuel (ts ++ .closeArray :: rts) = some (js, rts)

/-- A text falls into tokens that make up the fields of an object, before its closing brace. -/
def FieldsReadAs (cs : List Char) (fs : List (List StringPiece × Json)) : Prop :=
  ∃ ts, (∀ rest rts, Lexes ('\x7d' :: rest) rts → Lexes (cs ++ '\x7d' :: rest) (ts ++ rts)) ∧
    ∀ fuel rts, ts.length < fuel → fields? fuel (ts ++ .closeObject :: rts) = some (fs, rts)

private theorem follows_cons {c : Char} (h : c = ',' ∨ c = ']' ∨ c = '\x7d') (rest : List Char) :
    Follows (c :: rest) := by
  rintro _ ⟨⟩
  exact h

/-- A text of one token that is a document. -/
private theorem readAs_of_first? {c : Char} {t : Token} (hblank : isBlank c = false)
    (hfirst : ∀ rest, Follows rest → first? (c :: cs ++ rest) = some (t, rest))
    (hvalue : ∀ fuel rts, value? (fuel + 1) (t :: rts) = some (j, rts)) : ReadAs (c :: cs) j := by
  refine ⟨[t], fun rest _ hrest h ↦ h.cons (hfirst rest hrest) hblank, fun fuel rts hfuel ↦ ?_⟩
  cases fuel with
  | zero => cases hfuel
  | succ fuel => exact hvalue fuel rts

private theorem readAs_null : ReadAs ['n', 'u', 'l', 'l'] null :=
  readAs_of_first? (t := .null) rfl (fun _ _ ↦ rfl) fun _ _ ↦ rfl

private theorem readAs_bool : (b : Bool) → ReadAs (bool b).chars (bool b)
  | true => readAs_of_first? (t := .bool true) rfl (fun _ _ ↦ rfl) fun _ _ ↦ rfl
  | false => readAs_of_first? (t := .bool false) rfl (fun _ _ ↦ rfl) fun _ _ ↦ rfl

private theorem readAs_string (s : List StringPiece) : ReadAs (stringChars s) (string (s.map .reread)) :=
  readAs_of_first? (t := .string (s.map .reread)) rfl (fun rest _ ↦ first?_string s rest)
    fun _ _ ↦ rfl

private theorem readAs_number {n : NumberToken} (hn : n.Valid) : ReadAs n.chars (number n) := by
  obtain ⟨c, cs, hcs, hblank⟩ : ∃ c cs, n.chars = c :: cs ∧ isBlank c = false := by
    rw [chars_eq]
    cases n.negative with
    | true => exact ⟨'-', unsignedChars n, rfl, rfl⟩
    | false =>
      obtain ⟨c, whole, hwhole⟩ := List.exists_cons_of_ne_nil hn.whole_ne_nil
      refine ⟨c, whole ++ _, by rw [unsignedChars, hwhole]; rfl, ?_⟩
      have hdigit := hn.whole c (by rw [hwhole]; exact List.mem_cons_self)
      simp only [isBlank, Bool.or_eq_false_iff, beq_eq_false_iff_ne]
      refine ⟨⟨⟨?_, ?_⟩, ?_⟩, ?_⟩ <;> rintro rfl <;> cases hdigit
  rw [hcs]
  exact readAs_of_first? (t := .number n) hblank (fun rest hrest ↦ hcs ▸ first?_number hn hrest)
    fun _ _ ↦ rfl

private theorem readAs_nil_array : ReadAs ['[', ']'] (array []) := by
  refine ⟨[.openArray, .closeArray], fun rest rts _ h ↦ ?_, fun fuel rts hfuel ↦ ?_⟩
  · exact (h.single (c := ']') rfl rfl).single (c := '[') rfl rfl
  · cases fuel with
    | zero => cases hfuel
    | succ fuel => rfl

private theorem readAs_nil_object : ReadAs ['\x7b', '\x7d'] (object []) := by
  refine ⟨[.openObject, .closeObject], fun rest rts _ h ↦ ?_, fun fuel rts hfuel ↦ ?_⟩
  · exact (h.single (c := '\x7d') rfl rfl).single (c := '\x7b') rfl rfl
  · cases fuel with
    | zero => cases hfuel
    | succ fuel => rfl

private theorem items?_closeArray (fuel : Nat) (rts : List Token) :
    items? fuel (.closeArray :: rts) = none := by
  cases fuel with
  | zero => rfl
  | succ fuel => cases fuel <;> rfl

private theorem fields?_closeObject (fuel : Nat) (rts : List Token) :
    fields? fuel (.closeObject :: rts) = none := by
  cases fuel <;> rfl

private theorem ItemsReadAs.readAs (h : ItemsReadAs cs js) : ReadAs ('[' :: cs ++ [']']) (array js) := by
  obtain ⟨ts, hlexes, hitems⟩ := h
  refine ⟨.openArray :: ts ++ [Token.closeArray], fun rest rts _ h ↦ ?_, fun fuel rts hfuel ↦ ?_⟩
  · have hclose : Lexes (']' :: rest) (.closeArray :: rts) := h.single rfl rfl
    simpa using (hlexes rest _ hclose).single (c := '[') rfl rfl
  · simp only [List.length_append, List.length_cons, List.length_nil] at hfuel
    cases fuel with
    | zero => cases hfuel
    | succ fuel =>
      have hread := hitems fuel rts (by omega)
      rw [List.append_assoc, List.cons_append, List.singleton_append, value?, hread]
      · rfl
      · intro rts' heq
        rw [heq, items?_closeArray] at hread
        cases hread

private theorem FieldsReadAs.readAs (h : FieldsReadAs cs fs) :
    ReadAs ('\x7b' :: cs ++ ['\x7d']) (object fs) := by
  obtain ⟨ts, hlexes, hfields⟩ := h
  refine ⟨.openObject :: ts ++ [Token.closeObject], fun rest rts _ h ↦ ?_, fun fuel rts hfuel ↦ ?_⟩
  · have hclose : Lexes ('\x7d' :: rest) (.closeObject :: rts) := h.single rfl rfl
    simpa using (hlexes rest _ hclose).single (c := '\x7b') rfl rfl
  · simp only [List.length_append, List.length_cons, List.length_nil] at hfuel
    cases fuel with
    | zero => cases hfuel
    | succ fuel =>
      have hread := hfields fuel rts (by omega)
      rw [List.append_assoc, List.cons_append, List.singleton_append, value?, hread]
      · rfl
      · intro rts' heq
        rw [heq, fields?_closeObject] at hread
        cases hread

private theorem ReadAs.item (h : ReadAs cs j) : ItemsReadAs cs [j] := by
  obtain ⟨ts, hlexes, hvalue⟩ := h
  refine ⟨ts, fun rest rts h ↦ hlexes _ _ (follows_cons (.inr (.inl rfl)) rest) h,
    fun fuel rts hfuel ↦ ?_⟩
  cases fuel with
  | zero => cases hfuel
  | succ fuel => rw [items?, hvalue fuel _ (Nat.le_of_lt_succ hfuel)]

private theorem ReadAs.items (h : ReadAs cs j) (hrest : ItemsReadAs cs' js) :
    ItemsReadAs (cs ++ ',' :: cs') (j :: js) := by
  obtain ⟨ts, hlexes, hvalue⟩ := h
  obtain ⟨ts', hlexes', hitems⟩ := hrest
  refine ⟨ts ++ .comma :: ts', fun rest rts h ↦ ?_, fun fuel rts hfuel ↦ ?_⟩
  · have hcomma := (hlexes' rest rts h).single (c := ',') (t := .comma) rfl rfl
    simpa using hlexes _ _ (follows_cons (.inl rfl) _) hcomma
  · simp only [List.length_append, List.length_cons] at hfuel
    cases fuel with
    | zero => cases hfuel
    | succ fuel =>
      rw [List.append_assoc, List.cons_append, items?, hvalue fuel _ (by omega)]
      simp only [hitems fuel rts (by omega), Option.map_some]

private theorem ReadAs.field (h : ReadAs cs j) (name : List StringPiece) :
    FieldsReadAs (stringChars name ++ ':' :: cs) [(name.map .reread, j)] := by
  obtain ⟨ts, hlexes, hvalue⟩ := h
  refine ⟨.string (name.map .reread) :: .colon :: ts, fun rest rts h ↦ ?_, fun fuel rts hfuel ↦ ?_⟩
  · have hcolon := (hlexes _ _ (follows_cons (.inr (.inr rfl)) rest) h).single (c := ':')
      (t := .colon) rfl rfl
    simpa [stringChars] using hcolon.cons (first?_string name _) rfl
  · simp only [List.length_cons] at hfuel
    cases fuel with
    | zero => cases hfuel
    | succ fuel =>
      rw [List.cons_append, List.cons_append, fields?, hvalue fuel _ (by omega)]

private theorem ReadAs.fields (h : ReadAs cs j) (name : List StringPiece) (hrest : FieldsReadAs cs' fs) :
    FieldsReadAs (stringChars name ++ ':' :: cs ++ ',' :: cs') ((name.map .reread, j) :: fs) := by
  obtain ⟨ts, hlexes, hvalue⟩ := h
  obtain ⟨ts', hlexes', hfields⟩ := hrest
  refine ⟨.string (name.map .reread) :: .colon :: ts ++ .comma :: ts', fun rest rts h ↦ ?_,
    fun fuel rts hfuel ↦ ?_⟩
  · have hcomma := (hlexes' rest rts h).single (c := ',') (t := .comma) rfl rfl
    have hcolon := (hlexes _ _ (follows_cons (.inl rfl) _) hcomma).single (c := ':')
      (t := .colon) rfl rfl
    simpa [stringChars] using hcolon.cons (first?_string name _) rfl
  · simp only [List.length_append, List.length_cons] at hfuel
    cases fuel with
    | zero => cases hfuel
    | succ fuel =>
      simp only [List.cons_append, List.append_assoc]
      rw [fields?, hvalue fuel _ (by omega)]
      simp only [hfields fuel rts (by omega), Option.map_some]

mutual

private theorem readAs_chars (j : Json) (h : ∀ n ∈ j.numbers, n.Valid) : ReadAs j.chars j.reread := by
  cases j with
  | null => exact readAs_null
  | bool b => exact readAs_bool b
  | number n => exact readAs_number (h n List.mem_cons_self)
  | string s => exact readAs_string s
  | array items =>
    cases items with
    | nil => exact readAs_nil_array
    | cons j rest => exact (itemsReadAs_itemChars (j :: rest) (List.cons_ne_nil j rest) h).readAs
  | object fields =>
    cases fields with
    | nil => exact readAs_nil_object
    | cons f rest => exact (fieldsReadAs_fieldChars (f :: rest) (List.cons_ne_nil f rest) h).readAs

private theorem itemsReadAs_itemChars (items : List Json) (hne : items ≠ [])
    (h : ∀ n ∈ itemNumbers items, n.Valid) : ItemsReadAs (itemChars items) (rereadItems items) := by
  cases items with
  | nil => exact absurd rfl hne
  | cons j rest =>
    rw [itemNumbers, List.forall_mem_append] at h
    have hj := readAs_chars j h.1
    cases rest with
    | nil => exact hj.item
    | cons j' rest => exact hj.items (itemsReadAs_itemChars (j' :: rest) (List.cons_ne_nil j' rest) h.2)

private theorem fieldsReadAs_fieldChars (fields : List (List StringPiece × Json)) (hne : fields ≠ [])
    (h : ∀ n ∈ fieldNumbers fields, n.Valid) :
    FieldsReadAs (fieldChars fields) (rereadFields fields) := by
  cases fields with
  | nil => exact absurd rfl hne
  | cons f rest =>
    obtain ⟨name, j⟩ := f
    rw [fieldNumbers, List.forall_mem_append] at h
    have hj := readAs_chars j h.1
    cases rest with
    | nil => exact hj.field name
    | cons f' rest =>
      exact hj.fields name (fieldsReadAs_fieldChars (f' :: rest) (List.cons_ne_nil f' rest) h.2)

end

/-- The text of a document is read back, with its control characters as code units. -/
theorem parse?_render (j : Json) (h : ∀ n ∈ j.numbers, n.Valid) : parse? j.render = some j.reread := by
  obtain ⟨ts, hlexes, hvalue⟩ := readAs_chars j h
  have hscan : scan j.chars = some ts := by
    have hall := hlexes [] [] nofun .nil _ (Nat.lt_succ_self _)
    rwa [List.append_nil, List.append_nil] at hall
  have hread := hvalue (ts.length + 1) [] (Nat.le_succ _)
  rw [List.append_nil] at hread
  rw [parse?, render, String.toList_ofList, hscan]
  simp only [bind, Option.bind, hread]

end Json

end MethodCompiler
