import Mathlib.Data.List.Basic
import MethodCompiler.Proofs.JsonText
import MethodCompiler.Tree.Reader
import MethodCompiler.Tree.Writer

/-!
# Decoders that read back what was written

A decoder reads a value back from its document if that nests no deeper than the decoder may go. Each
way to build decoders has a rule: if the parts read back the parts of a document, the whole reads back
the document.
-/

namespace MethodCompiler

/-! ### Strings and numbers -/

namespace StringPiece

private theorem decode?_unit {code : UInt16} (h : code < 0xd800) (rest : List StringPiece) :
    decode? (unit code :: rest) = (decode? rest).map (Char.ofNat code.toNat :: ·) := by
  have hhigh : ¬0xd800 ≤ code := UInt16.not_le.mpr h
  have hlow : ¬0xdc00 ≤ code := fun hle ↦ hhigh (UInt16.le_trans (by decide) hle)
  rcases rest with - | ⟨c | lo, rest⟩ <;> simp [decode?, hhigh, hlow]

private theorem decode?_reread (cs : List Char) : decode? ((cs.map char).map reread) = some cs := by
  induction cs with
  | nil => rfl
  | cons c cs ih =>
    rw [List.map_cons, List.map_cons]
    by_cases hc : isControl c
    · have hlt : c.toNat < 32 := of_decide_eq_true (Bool.and_eq_true_iff.mp hc).1
      have hcode : (UInt16.ofNat c.toNat).toNat = c.toNat := Nat.mod_eq_of_lt (by omega)
      have hunit : UInt16.ofNat c.toNat < 0xd800 := by
        rw [UInt16.lt_iff_toNat_lt, hcode]
        exact Nat.lt_trans hlt (by decide)
      rw [reread, if_pos hc, decode?_unit hunit, ih, hcode, Char.ofNat_toNat]
      rfl
    · rw [reread, if_neg hc, decode?, ih]
      rfl

/-- A string is read back as it was. -/
theorem text?_reread (s : String) : text? ((s.toList.map char).map reread) = some s := by
  rw [text?, decode?_reread, Option.map_some, String.ofList_toList]

private theorem reread_digit {c : Char} (h : c.isDigit = true) : reread (char c) = char c := by
  have hc : ¬c.toNat < 32 := by
    have hle : 48 ≤ c.toNat := by
      simp only [Char.isDigit, Bool.and_eq_true, decide_eq_true_eq] at h
      exact h.1
    omega
  simp [reread, isControl, hc]

end StringPiece

namespace NumberToken

private theorem natOfDigits_toDigits (n : Nat) : natOfDigits (Nat.toDigits 10 n) = n := by
  have heq : natOfDigits (Nat.toDigits 10 n) = Nat.ofDigitChars 10 (Nat.toDigits 10 n) 0 := by
    simp only [natOfDigits, Nat.ofDigitChars, Nat.mul_comm]
    rfl
  rw [heq, Nat.ofDigitChars_toDigits (by decide) (by decide)]

private theorem head?_toDigits {n : Nat} (h : 0 < n) : (Nat.toDigits 10 n).head? ≠ some '0' := by
  induction n using Nat.strongRecOn with
  | ind n ih =>
    rcases Nat.lt_or_ge n 10 with hn | hn
    · rw [Nat.toDigits_of_lt_base hn, List.head?_singleton, Ne, Option.some_inj,
        Nat.digitChar_eq_zero]
      exact Nat.ne_of_gt h
    · rw [Nat.toDigits_of_base_le (by decide) hn, List.head?_append_of_ne_nil _ Nat.toDigits_ne_nil]
      exact ih (n / 10) (by omega) (by omega)

private theorem length_toDigits {n : Nat} (h : (Nat.toDigits 10 n).head? = some '0') :
    (Nat.toDigits 10 n).length ≤ 1 := by
  rcases Nat.eq_zero_or_pos n with rfl | hn
  · exact Nat.le_refl 1
  · exact absurd h (head?_toDigits hn)

private theorem digit_of_mem {c : Char} {n : Nat} (h : c ∈ Nat.toDigits 10 n) : c.isDigit = true :=
  Nat.isDigit_of_mem_toDigits (by decide) (by decide) h

/-- The decimal digits of a number are a valid one. -/
private theorem valid_toDigits (negative : Bool) (n : Nat) :
    Valid { negative, whole := Nat.toDigits 10 n } :=
  ⟨Nat.toDigits_ne_nil, fun _ ↦ digit_of_mem, length_toDigits, nofun, nofun⟩

private theorem int?_ofInt (i : Int) :
    int? { negative := i < 0, whole := Nat.toDigits 10 i.natAbs } = some i := by
  simp only [int?, natOfDigits_toDigits, List.isEmpty_nil, Option.isNone_none, Bool.and_self, if_true,
    decide_eq_true_eq, beq_iff_eq]
  split
  · rw [if_neg (by omega)]
    congr 1
    omega
  · congr 1
    omega

end NumberToken

namespace Json

mutual

/-- How many objects and arrays of a document are open at once. -/
def depth : Json → Nat
  | array items => itemDepth items + 1
  | object fields => fieldDepth fields + 1
  | _ => 0

def itemDepth : List Json → Nat
  | [] => 0
  | j :: rest => max j.depth (itemDepth rest)

def fieldDepth : List (List StringPiece × Json) → Nat
  | [] => 0
  | (_, j) :: rest => max j.depth (fieldDepth rest)

end

private theorem ofNat_eq (n : Nat) : ofNat n = ofInt n := by
  simp [ofNat, ofInt]

private theorem depth_ofFields_le {f : String × Json} {rest : List (String × Json)} {m : Nat} :
    (ofFields (f :: rest)).depth ≤ m + 1 ↔ f.2.depth ≤ m ∧ (ofFields rest).depth ≤ m + 1 := by
  simp only [ofFields, List.map_cons, depth, fieldDepth, Nat.add_le_add_iff_right, Nat.max_le]

private theorem forall_numbers_ofFields {f : String × Json} {rest : List (String × Json)}
    {p : NumberToken → Prop} : (∀ k ∈ (ofFields (f :: rest)).numbers, p k) ↔
      (∀ k ∈ f.2.numbers, p k) ∧ ∀ k ∈ (ofFields rest).numbers, p k :=
  List.forall_mem_append

private theorem reread_ofFields (fields : List (String × Json)) :
    (ofFields fields).reread =
      object (fields.map fun f ↦ ((f.1.toList.map .char).map .reread, f.2.reread)) := by
  rw [ofFields, reread]
  congr 1
  induction fields with
  | nil => rfl
  | cons f rest ih => exact congrArg (_ :: ·) ih

end Json

namespace Decoder

variable {α β : Type} {d : Decoder α} {n m : Nat} {j : Json} {a : α} {b : β}

/-- Wherever fewer than `n` levels may still be opened and a document has room, its numbers are valid
and the decoder reads the value back from its text. -/
def Reads (d : Decoder α) (n : Nat) (j : Json) (a : α) : Prop :=
  ∀ depth < n, j.depth ≤ depth → (∀ k ∈ j.numbers, k.Valid) ∧ d depth j.reread = some a

/-- What is read at some depth is read with more depth left. -/
theorem Reads.mono (h : Reads d n j a) (hle : m ≤ n) : Reads d m j a :=
  fun depth hdepth ↦ h depth (Nat.lt_of_lt_of_le hdepth hle)

private theorem Reads.map (h : Reads d n j a) (g : α → β) :
    Reads (fun depth j ↦ (d depth j).map g) n j (g a) := by
  intro depth hdepth hj
  obtain ⟨hvalid, hread⟩ := h depth hdepth hj
  exact ⟨hvalid, congrArg (Option.map g) hread⟩

/-! ### Plain values -/

/-- A string is read back. -/
theorem reads_string (s : String) : Reads string n (.ofString s) s :=
  fun _ _ _ ↦ ⟨nofun, StringPiece.text?_reread s⟩

/-- A truth value is read back. -/
theorem reads_bool (b : Bool) : Reads bool n (.bool b) b := fun _ _ _ ↦ ⟨nofun, rfl⟩

/-- A character is read back. -/
theorem reads_char (c : Char) : Reads char n (.ofString (String.ofList [c])) c := by
  intro depth hdepth hj
  obtain ⟨hvalid, hread⟩ := reads_string (String.ofList [c]) depth hdepth hj
  refine ⟨hvalid, ?_⟩
  rw [char, hread]
  simp

private theorem reads_intBetween {lo hi i : Int} (hlo : lo ≤ i) (hhi : i < hi) :
    Reads (intBetween lo hi) n (.ofInt i) i := by
  intro depth _ _
  refine ⟨fun k hk ↦ ?_, ?_⟩
  · rw [List.mem_singleton.mp hk]
    exact NumberToken.valid_toDigits _ _
  · simp only [Json.ofInt, Json.reread, intBetween, NumberToken.int?_ofInt, bind, Option.bind, hlo, hhi,
      decide_true, Bool.and_self, if_true]

private theorem reads_ofNat {hi : Int} {k : Nat} (h : (k : Int) < hi) (g : Nat → α) :
    Reads (fun depth j ↦ (intBetween 0 hi depth j).map (g ·.toNat)) n (.ofNat k) (g k) := by
  have hread : Reads _ n _ (g (k : Int).toNat) :=
    (reads_intBetween (Int.natCast_nonneg k) h).map fun i ↦ g i.toNat
  rwa [Int.toNat_natCast, ← Json.ofNat_eq] at hread

/-- A number of 16 bits is read back. -/
theorem reads_uint16 (x : UInt16) : Reads uint16 n (.ofNat x.toNat) x := by
  have hlt : (x.toNat : Int) < UInt16.size := Int.ofNat_lt.mpr x.toNat_lt_size
  have hread : Reads uint16 n _ (UInt16.ofNat x.toNat) := reads_ofNat hlt UInt16.ofNat
  rwa [UInt16.ofNat_toNat] at hread

/-- A number of 32 bits is read back. -/
theorem reads_uint32 (x : UInt32) : Reads uint32 n (.ofNat x.toNat) x := by
  have hlt : (x.toNat : Int) < UInt32.size := Int.ofNat_lt.mpr x.toNat_lt_size
  have hread : Reads uint32 n _ (UInt32.ofNat x.toNat) := reads_ofNat hlt UInt32.ofNat
  rwa [UInt32.ofNat_toNat] at hread

/-- An unsigned number of 64 bits is read back. -/
theorem reads_uint64 (x : UInt64) : Reads uint64 n (.ofNat x.toNat) x := by
  have hlt : (x.toNat : Int) < UInt64.size := Int.ofNat_lt.mpr x.toNat_lt_size
  have hread : Reads uint64 n _ (UInt64.ofNat x.toNat) := reads_ofNat hlt UInt64.ofNat
  rwa [UInt64.ofNat_toNat] at hread

/-- A signed number of 64 bits is read back. -/
theorem reads_int64 (x : Int64) : Reads int64 n (.ofInt x.toInt) x := by
  have h : Reads (intBetween (-0x8000000000000000) 0x8000000000000000) n (.ofInt x.toInt) x.toInt :=
    reads_intBetween x.le_toInt x.toInt_lt
  have hread := h.map Int64.ofInt
  rwa [Int64.ofInt_toInt] at hread

/-! ### Options, lists and pairs -/

/-- A decoder that refuses null. -/
def RefusesNull (d : Decoder α) : Prop := ∀ depth, d depth .null = none

private theorem nullable_of_refusesNull (hnull : RefusesNull d) {depth : Nat} (h : d depth j = some a) :
    nullable d depth j = some (some a) := by
  cases j with
  | null => rw [hnull depth] at h; cases h
  | _ => exact congrArg (Option.map some) h

/-- A value that may be missing is read back where it is there. -/
theorem Reads.nullable (h : Reads d n j a) (hnull : RefusesNull d) :
    Reads (nullable d) n j (some a) := by
  intro depth hdepth hj
  obtain ⟨hvalid, hread⟩ := h depth hdepth hj
  exact ⟨hvalid, nullable_of_refusesNull hnull hread⟩

/-- A value that may be missing is read back as missing from `null`. -/
theorem reads_null : Reads (nullable d) n .null none := fun _ _ _ ↦ ⟨nofun, rfl⟩

/-- A value that may be missing is read back. -/
theorem reads_ofOption {f : α → Json} {o : Option α} (hnull : RefusesNull d)
    (h : ∀ a ∈ o, Reads d n (f a) a) : Reads (Decoder.nullable d) n (.ofOption f o) o := by
  cases o with
  | none => exact reads_null
  | some a => exact (h a rfl).nullable hnull

/-- The same for the elements of an array. -/
def ItemsRead (d : Decoder α) (n : Nat) (items : List Json) (as : List α) : Prop :=
  ∀ depth < n, Json.itemDepth items ≤ depth →
    (∀ k ∈ Json.itemNumbers items, k.Valid) ∧ (Json.rereadItems items).mapM (d depth) = some as

/-- No items are read back. -/
theorem ItemsRead.nil : ItemsRead d n [] [] := fun _ _ _ ↦ ⟨nofun, rfl⟩

/-- Items are read back one by one. -/
theorem ItemsRead.cons {items : List Json} {as : List α} (h : Reads d n j a)
    (hrest : ItemsRead d n items as) : ItemsRead d n (j :: items) (a :: as) := by
  intro depth hdepth hitems
  rw [Json.itemDepth, Nat.max_le] at hitems
  obtain ⟨hvalid, hread⟩ := h depth hdepth hitems.1
  obtain ⟨hvalid', hread'⟩ := hrest depth hdepth hitems.2
  refine ⟨List.forall_mem_append.mpr ⟨hvalid, hvalid'⟩, ?_⟩
  rw [Json.rereadItems, List.mapM_cons, hread, hread']
  rfl

/-- Items are read back if each of them is. -/
theorem itemsRead_map {f : α → Json} {as : List α} (h : ∀ a ∈ as, Reads d n (f a) a) :
    ItemsRead d n (as.map f) as := by
  induction as with
  | nil => exact .nil
  | cons a as ih =>
    exact .cons (h a List.mem_cons_self) (ih fun a' ha' ↦ h a' (List.mem_cons_of_mem a ha'))

/-- A list is read back if its items are. -/
theorem ItemsRead.list {items : List Json} {as : List α} (h : ItemsRead d n items as) :
    Reads (list d) n (.array items) as := by
  intro depth hdepth hj
  cases depth with
  | zero => cases hj
  | succ depth => exact h depth (Nat.lt_of_succ_lt hdepth) (Nat.le_of_succ_le_succ hj)

/-- A pair is read back if its two parts are. -/
theorem Reads.pair {e : Decoder β} {k : Json} (h : Reads d n j a) (h' : Reads e n k b) :
    Reads (pair d e) n (.array [j, k]) (a, b) := by
  intro depth hdepth hj
  cases depth with
  | zero => cases hj
  | succ depth =>
    have hle := Nat.le_of_succ_le_succ hj
    rw [Json.itemDepth, Json.itemDepth, Nat.max_le, Nat.max_le] at hle
    obtain ⟨hvalid, hread⟩ := h depth (Nat.lt_of_succ_lt hdepth) hle.1
    obtain ⟨hvalid', hread'⟩ := h' depth (Nat.lt_of_succ_lt hdepth) hle.2.1
    refine ⟨List.forall_mem_append.mpr ⟨hvalid, List.forall_mem_append.mpr ⟨hvalid', nofun⟩⟩, ?_⟩
    change (d depth j.reread >>= fun a ↦ e depth k.reread >>= fun b ↦ pure (a, b)) = some (a, b)
    rw [hread, hread']
    rfl

/-! ### Maps -/

private theorem mapM_eq_map {γ : Type} {f : β → Option γ} {g : β → γ} {bs : List β}
    (h : ∀ b ∈ bs, f b = some (g b)) : bs.mapM f = some (bs.map g) := by
  induction bs with
  | nil => rfl
  | cons b bs ih =>
    obtain ⟨hb, hbs⟩ := List.forall_mem_cons.mp h
    rw [List.mapM_cons, hb, ih hbs]
    rfl

private theorem mapM_digits {f : StringPiece → Option Char}
    (hf : ∀ c, c.isDigit = true → f (.char c) = some c)
    {ds : List Char} (h : ∀ c ∈ ds, c.isDigit = true) :
    ((ds.map StringPiece.char).map .reread).mapM f = some ds := by
  rw [List.mapM_map, List.mapM_map, mapM_eq_map (g := id) fun c hc ↦ ?_, List.map_id]
  rw [Function.comp_apply, Function.comp_apply, StringPiece.reread_digit (h c hc)]
  exact hf c (h c hc)

/-- The name of a field that is a number is read back as the number. -/
private theorem numericName?_toString (x : UInt32) :
    numericName? (((toString x.toNat).toList.map .char).map .reread) = some x := by
  have hdigits : (toString x.toNat).toList = Nat.toDigits 10 x.toNat := by
    simp [Nat.toString_eq_repr, Nat.repr_eq_ofList_toDigits]
  have hguard : ((Nat.toDigits 10 x.toNat).isEmpty || (Nat.toDigits 10 x.toNat).head? == some '0' &&
      decide (1 < (Nat.toDigits 10 x.toNat).length)) = false := by
    simpa using fun h ↦ NumberToken.length_toDigits h
  rw [numericName?, hdigits, mapM_digits (fun c hc ↦ by simp [hc]) fun _ ↦ NumberToken.digit_of_mem]
  simp only [bind, Option.bind, hguard, Bool.false_eq_true, if_false, NumberToken.natOfDigits_toDigits,
    x.toNat_lt_size, if_true, UInt32.ofNat_toNat]

private theorem reads_numbered {f : α → Json} {entries : List (UInt32 × α)}
    (h : ∀ e ∈ entries, Reads d n (f e.2) e.2) : Reads (numbered d) n
      (.ofFields (entries.map fun (id, a) ↦ (toString id.toNat, f a))) entries := by
  intro depth hdepth hj
  cases depth with
  | zero => cases hj
  | succ depth =>
    rw [Json.reread_ofFields, numbered]
    induction entries with
    | nil => exact ⟨nofun, rfl⟩
    | cons e entries ih =>
      obtain ⟨he, hentries⟩ := List.forall_mem_cons.mp h
      obtain ⟨hfirst, hrest⟩ := Json.depth_ofFields_le.mp hj
      obtain ⟨hvalid, hread⟩ := he depth (Nat.lt_of_succ_lt hdepth) hfirst
      obtain ⟨hvalid', hread'⟩ := ih hentries hrest
      refine ⟨Json.forall_numbers_ofFields.mpr ⟨hvalid, hvalid'⟩, ?_⟩
      rw [List.map_cons, List.map_cons, List.mapM_cons, hread']
      simp only [numericName?_toString, hread]
      rfl

/-- A map is read back if its values are. -/
theorem reads_sortedMap {f : α → Json} (m : SortedMap α) (h : ∀ e ∈ m.entries, Reads d n (f e.2) e.2) :
    Reads (sortedMap d) n (m.toJson f) m := by
  have hread := (reads_numbered h).map SortedMap.ofList
  rwa [m.ofList_entries] at hread

/-! ### Records -/

/-- The same for the fields of a record, which are read one after the other. -/
def FieldsRead (read : FieldReader α) (n : Nat) (fields : List (String × Json)) (a : α) : Prop :=
  ∀ depth < n, (Json.ofFields fields).depth ≤ depth + 1 →
    (∀ k ∈ (Json.ofFields fields).numbers, k.Valid) ∧
      ∃ r, read ⟨fields.map fun f ↦ some f.2.reread, false, depth⟩ = some (a, r)

/-- A reader that asks for no fields reads none. -/
theorem FieldsRead.pure (a : α) : FieldsRead (pure a) n [] a := fun _ _ _ ↦ ⟨nofun, _, rfl⟩

section

variable {next : α → FieldReader β} {name : String} {rest : List (String × Json)}

/-- A field that is there is read by its decoder, whatever happens when it is left out. -/
private theorem FieldsRead.cons {step : FieldReader α} (hstep : ∀ j fields depth,
      step ⟨some j :: fields, false, depth⟩ = (d depth j).map (·, ⟨fields, false, depth⟩))
    (h : Reads d n j a) (hrest : FieldsRead (next a) n rest b) :
    FieldsRead (step >>= next) n ((name, j) :: rest) b := by
  intro depth hdepth hfields
  obtain ⟨hfirst, hfields⟩ := Json.depth_ofFields_le.mp hfields
  obtain ⟨hvalid, hread⟩ := h depth hdepth hfirst
  obtain ⟨hvalid', r, hread'⟩ := hrest depth hdepth hfields
  refine ⟨Json.forall_numbers_ofFields.mpr ⟨hvalid, hvalid'⟩, r, ?_⟩
  change (step ⟨some j.reread :: _, false, depth⟩ >>= fun p ↦ next p.1 p.2) = _
  rw [hstep, hread]
  exact hread'

/-- A field that has to be there is read back, then the others. -/
theorem FieldsRead.required (h : Reads d n j a) (hrest : FieldsRead (next a) n rest b) :
    FieldsRead (required d >>= next) n ((name, j) :: rest) b := by
  refine .cons (fun j _ depth ↦ ?_) h hrest
  cases hj : d depth j <;> simp [Decoder.required, Record.uncons, hj]

/-- A field with a default is read back, then the others. -/
theorem FieldsRead.defaulted {default : α} (h : Reads d n j a) (hrest : FieldsRead (next a) n rest b) :
    FieldsRead (defaulted d default >>= next) n ((name, j) :: rest) b := by
  refine .cons (fun j _ depth ↦ ?_) h hrest
  cases hj : d depth j <;> simp [Decoder.defaulted, Record.uncons, hj]

/-- A field that may be missing is read back, then the others. -/
theorem FieldsRead.optional {next : Option α → FieldReader β} {o : Option α}
    (h : Reads (nullable d) n j o) (hrest : FieldsRead (next o) n rest b) :
    FieldsRead (optional d >>= next) n ((name, j) :: rest) b := by
  refine .cons (fun j _ depth ↦ ?_) h hrest
  cases hj : nullable d depth j <;> simp [Decoder.optional, Record.uncons, hj]

end

private theorem filter_eq_singleton {fields : List (String × Json)} (h : (fields.map (·.1)).Nodup)
    {f : String × Json} (hf : f ∈ fields) : fields.filter (·.1 == f.1) = [f] := by
  induction fields with
  | nil => cases hf
  | cons g rest ih =>
    obtain ⟨hg, hrest⟩ := List.nodup_cons.mp h
    have hne : ∀ g' ∈ rest, g'.1 ≠ g.1 := fun g' hg' heq ↦ hg (List.mem_map.mpr ⟨g', hg', heq⟩)
    rw [List.filter_cons]
    rcases List.mem_cons.mp hf with rfl | hf
    · rw [if_pos BEq.rfl, List.filter_eq_nil_iff.mpr fun g' hg' ↦ by simpa using hne g' hg']
    · rw [if_neg (by simpa using (hne f hf).symm), ih hrest hf]

/-- Fields with distinct names are found by their names. -/
private theorem select?_reread {fields : List (String × Json)} (h : (fields.map (·.1)).Nodup) :
    select? (fields.map (·.1))
      (fields.map fun f ↦ ((f.1.toList.map .char).map .reread, f.2.reread)) =
        some (fields.map fun f ↦ some f.2.reread) := by
  have hnames : (fields.map fun f ↦ (f.1, f.2.reread)).map (·.1) = fields.map (·.1) := by
    rw [List.map_map]
    rfl
  rw [select?, List.mapM_map, mapM_eq_map (g := fun f ↦ (f.1, f.2.reread))]
  · simp only [bind, Option.bind, List.mapM_map]
    refine mapM_eq_map fun f hf ↦ ?_
    have hfound := filter_eq_singleton (hnames ▸ h) (List.mem_map_of_mem hf)
    simp only [Function.comp_apply, hfound]
  · intro f _
    simp only [Function.comp_apply, StringPiece.text?_reread]
    rfl

/-- A record is read back if its fields are, which takes one level of depth. -/
theorem FieldsRead.record_succ {read : FieldReader α} {names : List String}
    {fields : List (String × Json)} (h : FieldsRead read n fields a)
    (hnames : fields.map (·.1) = names) (hnodup : names.Nodup) :
    Reads (record names read) (n + 1) (.ofFields fields) a := by
  subst hnames
  intro depth hdepth hj
  cases depth with
  | zero => cases hj
  | succ depth =>
    obtain ⟨hvalid, r, hread⟩ := h depth (Nat.lt_of_succ_lt_succ hdepth) hj
    refine ⟨hvalid, ?_⟩
    rw [Json.reread_ofFields, Decoder.record, select?_reread hnodup]
    simp only [bind, Option.bind, hread]
    rfl

/-- A record is read back if its fields are. -/
theorem FieldsRead.record {read : FieldReader α} {names : List String} {fields : List (String × Json)}
    (h : FieldsRead read n fields a) (hnames : fields.map (·.1) = names) (hnodup : names.Nodup) :
    Reads (record names read) n (.ofFields fields) a :=
  (h.record_succ hnames hnodup).mono (Nat.le_succ n)

/-- No record is read from `null`. -/
theorem refusesNull_record (names : List String) (read : FieldReader α) :
    RefusesNull (record names read)
  | 0 | _ + 1 => rfl

/-! ### Variants -/

/-- A variant without data is read back from its name. -/
theorem reads_name {read : String → Option (Json × Nat) → Option α} {name : String}
    (h : read name none = some a) : Reads (variant read) n (.ofString name) a := by
  intro depth _ _
  refine ⟨nofun, ?_⟩
  change (StringPiece.text? _ >>= fun name ↦ read name none) = _
  rw [StringPiece.text?_reread]
  exact h

private theorem Reads.variant {read : String → Option (Json × Nat) → Option β} {name : String}
    (h : Reads d n j a)
    (hread : ∀ depth k, d depth k = some a → read name (some (k, depth)) = some b) :
    Reads (variant read) (n + 1) (.tagged name j) b := by
  intro depth hdepth hj
  cases depth with
  | zero => cases hj
  | succ depth =>
    obtain ⟨hvalid, hvalue⟩ := h depth (Nat.lt_of_succ_lt_succ hdepth) (Json.depth_ofFields_le.mp hj).1
    refine ⟨Json.forall_numbers_ofFields.mpr ⟨hvalid, nofun⟩, ?_⟩
    change (StringPiece.text? _ >>= fun name ↦ read name (some (j.reread, depth))) = _
    rw [StringPiece.text?_reread]
    exact hread depth j.reread hvalue

/-- A variant is read back by its tag if its payload is, which takes one level of depth. -/
theorem Reads.tagged_succ {read : String → Option (Json × Nat) → Option β} {name : String} {g : α → β}
    (h : Reads d n j a) (hread : ∀ data, read name data = (payload d data).map g) (hb : g a = b) :
    Reads (Decoder.variant read) (n + 1) (.tagged name j) b :=
  h.variant fun depth k hk ↦ by rw [hread, payload, hk, Option.map_some, hb]

/-- A variant with data is read back if its data is. -/
theorem Reads.tagged {read : String → Option (Json × Nat) → Option β} {name : String} {g : α → β}
    (h : Reads d n j a) (hread : ∀ data, read name data = (payload d data).map g) (hb : g a = b) :
    Reads (Decoder.variant read) n (.tagged name j) b :=
  (h.tagged_succ hread hb).mono (Nat.le_succ n)

/-- A variant whose data is a record is read back if the fields of the record are. -/
theorem FieldsRead.tagged {read : String → Option (Json × Nat) → Option α} {name : String}
    {reader : FieldReader α} {names : List String} {fields : List (String × Json)}
    (hread : ∀ data, read name data = payload (Decoder.record names reader) data)
    (hnames : fields.map (·.1) = names) (hnodup : names.Nodup) (h : FieldsRead reader n fields a) :
    Reads (variant read) n (.taggedFields name fields) a :=
  ((h.record hnames hnodup).variant fun _ _ hk ↦ (hread _).trans hk).mono (Nat.le_succ n)

/-- No variant is read from `null`. -/
theorem refusesNull_variant (read : String → Option (Json × Nat) → Option α) :
    RefusesNull (variant read)
  | 0 | _ + 1 => rfl

end Decoder

end MethodCompiler
