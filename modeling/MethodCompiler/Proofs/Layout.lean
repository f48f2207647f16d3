import Mathlib.Data.List.Nodup
import Mathlib.Data.List.Perm.Basic
import MethodCompiler.Flow.Graph
import MethodCompiler.Lowering.Body
import MethodCompiler.Proofs.Machine

/-!
# The layout of emitted code

Code is laid out by constructs: each has a number, labels that are named by it, and parts that are laid
out in turn. `Laid` is the grammar of such code. A jump goes to a label of a construct around it. A
protected construct opens a region, and control does not run into its handler, its cleanup or its end.
-/

namespace MethodCompiler

/-! ### The number of a label -/

/-- The number in a label: its first digits. -/
def constructOf (l : String) : Nat :=
  Nat.ofDigitChars 10 ((l.toList.dropWhile (!·.isDigit)).takeWhile (·.isDigit)) 0

/-- A label tells the number of its construct. -/
theorem constructOf_labelName {kind : String} (hkind : ∀ c ∈ kind.toList, c.isDigit = false) (n : Nat)
    (part : String) : constructOf (Lowering.labelName kind n part) = n := by
  have hdigits : ∀ c ∈ Nat.toDigits 10 n, c.isDigit = true := fun c hc ↦
    Nat.isDigit_of_mem_toDigits (by decide) (by decide) hc
  have hlist : (Lowering.labelName kind n part).toList =
      kind.toList ++ (Nat.toDigits 10 n ++ '_' :: part.toList) := by
    simp [Lowering.labelName, String.toList_append, List.append_assoc]
  have hdrop : (kind.toList ++ (Nat.toDigits 10 n ++ '_' :: part.toList)).dropWhile (!·.isDigit) =
      Nat.toDigits 10 n ++ '_' :: part.toList := by
    rw [List.dropWhile_append_of_pos fun c hc ↦ by rw [hkind c hc]; rfl]
    obtain ⟨d, rest, hd⟩ := List.exists_cons_of_ne_nil (Nat.toDigits_ne_nil (n := n) (b := 10))
    rw [hd, List.cons_append, List.dropWhile_cons_of_neg]
    rw [hdigits d (by rw [hd]; exact List.mem_cons_self)]
    decide
  have htake : (Nat.toDigits 10 n ++ '_' :: part.toList).takeWhile (·.isDigit) = Nat.toDigits 10 n := by
    rw [List.takeWhile_append_of_pos hdigits, List.takeWhile_cons_of_neg (by decide),
      List.append_nil]
  rw [constructOf, hlist, hdrop, htake, Nat.ofDigitChars_toDigits (by decide) (by decide)]

/-- The labels of a construct differ where their parts do. -/
theorem labelName_inj {kind part part' : String} {n : Nat} :
    Lowering.labelName kind n part = Lowering.labelName kind n part' ↔ part = part' := by
  constructor
  · intro h
    have := congrArg String.toList h
    simp only [Lowering.labelName, String.toList_append, List.append_cancel_left_eq] at this
    exact String.toList_inj.mp this
  · rintro rfl
    rfl

private theorem endsWith_iff {s t : String} : s.endsWith t = true ↔ t.toList <:+ s.toList := by
  rw [String.endsWith_eq_endsWith_toSlice, String.Slice.endsWith_string_iff, String.copy_toSlice]

/-- Two ends of a text that start at its last underscore are the same. -/
private theorem suffix_underscore_iff {start a b : List Char} (ha : '_' ∉ a) (hb : '_' ∉ b) :
    '_' :: a <:+ start ++ '_' :: b ↔ a = b := by
  have hinside {a b : List Char} (hb : '_' ∉ b) (h : '_' :: a <:+ '_' :: b) : a = b := by
    rcases List.suffix_cons_iff.mp h with h | h
    · exact (List.cons.inj h).2
    · exact absurd (h.mem List.mem_cons_self) hb
  constructor
  · intro h
    rcases List.suffix_or_suffix_of_suffix h (List.suffix_append start ('_' :: b)) with h | h
    · exact hinside hb h
    · exact (hinside ha h).symm
  · rintro rfl
    exact List.suffix_append _ _

/-- The labels of handlers and cleanups read like phase boundaries, and no others. -/
theorem isPhaseMarker_labelName {kind part : String} {n : Nat} (h : '_' ∉ part.toList) :
    isPhaseMarker (Lowering.labelName kind n part) = (part == "catch" || part == "finally") := by
  have hend {marker : String} (hmarker : '_' ∉ marker.toList) :
      (Lowering.labelName kind n part).endsWith ("_" ++ marker) = (part == marker) := by
    have hlist : (Lowering.labelName kind n part).toList =
        (kind ++ toString n).toList ++ '_' :: part.toList := by
      simp [Lowering.labelName, String.toList_append]
    rw [Bool.eq_iff_iff, endsWith_iff, hlist, String.toList_append, beq_iff_eq]
    exact (suffix_underscore_iff hmarker h).trans
      (String.toList_inj.trans ⟨Eq.symm, Eq.symm⟩)
  have hcatch : '_' ∉ "catch".toList := by decide
  have hfinally : '_' ∉ "finally".toList := by decide
  rw [isPhaseMarker, ← hend hcatch, ← hend hfinally]
  rfl

/-! ### The grammar -/

/-- The labels of a construct: those that open a phase of a region, and the others. -/
structure ConstructLabels (n : Nat) (phases labels : List String) : Prop where
  nodup : (phases ++ labels).Nodup
  number : ∀ l ∈ phases ++ labels, constructOf l = n
  phase : ∀ l ∈ phases, isPhaseMarker l = true
  plain : ∀ l ∈ labels, isPhaseMarker l = false

/-- The name of a part that opens no phase of a region. -/
def isPlainPart (part : String) : Bool :=
  part.toList.all (· != '_') && part != "catch" && part != "finally"

private theorem isPhaseMarker_of_isPlainPart {kind part : String} {n : Nat} (h : isPlainPart part = true) :
    isPhaseMarker (Lowering.labelName kind n part) = false := by
  simp only [isPlainPart, Bool.and_eq_true, List.all_eq_true, bne_iff_ne] at h
  obtain ⟨⟨hchars, hcatch⟩, hfinally⟩ := h
  rw [isPhaseMarker_labelName fun hc ↦ hchars '_' hc rfl]
  simp [hcatch, hfinally]

/-- The labels of a construct whose kind is a word. -/
theorem constructLabels {kind : String} {n : Nat} (phases : List String) {parts : List String}
    (hkind : kind.toList.all (!·.isDigit) = true) (hnodup : (phases ++ parts).Nodup)
    (hphases : ∀ part ∈ phases, part = "catch" ∨ part = "finally")
    (hparts : ∀ part ∈ parts, isPlainPart part = true) :
    ConstructLabels n (phases.map (Lowering.labelName kind n)) (parts.map (Lowering.labelName kind n)) where
  nodup := by
    rw [← List.map_append]
    exact hnodup.map fun _ _ he ↦ labelName_inj.mp he
  number := by
    rw [← List.map_append]
    refine List.forall_mem_map.mpr fun part _ ↦ constructOf_labelName (fun c hc ↦ ?_) n part
    simpa using List.all_eq_true.mp hkind c hc
  phase := by
    refine List.forall_mem_map.mpr fun part hpart ↦ ?_
    rcases hphases part hpart with rfl | rfl
    · rw [isPhaseMarker_labelName (by decide)]
      rfl
    · rw [isPhaseMarker_labelName (by decide)]
      rfl
  plain := List.forall_mem_map.mpr fun part hpart ↦ isPhaseMarker_of_isPlainPart (hparts part hpart)

/-- A word for a kind of construct, and different names for its parts, none of which opens a phase of a
region. -/
structure PlainParts (kind : String) (parts : List String) : Prop where
  kind : kind.toList.all (!·.isDigit) = true
  nodup : parts.Nodup
  plain : ∀ part ∈ parts, isPlainPart part = true

/-- The labels of the parts are those of a construct. -/
theorem PlainParts.constructLabels {kind : String} {parts : List String} (h : PlainParts kind parts)
    (n : Nat) : ConstructLabels n [] (parts.map (Lowering.labelName kind n)) :=
  MethodCompiler.constructLabels [] h.kind h.nodup (List.forall_mem_nil _) h.plain

/-- Opcodes that neither mark a position, nor bound a region, nor name a place to go to. -/
def Opcode.isOrdinary : Opcode → Bool
  | label | enterTry | leave | endFinally | switch => false
  | op => !op.isBranch

/-- The code of a protected construct, from its body, its handler and its cleanup. -/
def protectedCode (c f : Option String) (e : String) (body handler cleanup : List Statement) :
    List Statement :=
  .of .enterTry [Lowering.optionalLabel c, Lowering.optionalLabel f, .label e] :: (body ++
    (c.elim [] (fun c ↦ .label c :: handler) ++
      (f.elim [] (fun f ↦ Statement.label f :: (cleanup ++ [Statement.of .endFinally []])) ++
        [Statement.label e])))

/-- A statement of a protected construct is one of a part, or bounds one. -/
theorem mem_protectedCode {s : Statement} {c f : Option String} {e : String}
    {body handler cleanup : List Statement} (h : s ∈ protectedCode c f e body handler cleanup) :
    s = .of .enterTry [Lowering.optionalLabel c, Lowering.optionalLabel f, .label e] ∨
      s ∈ body ∨ s ∈ handler ∨ s ∈ cleanup ∨ s.op = .label ∨ s.op = .endFinally := by
  simp only [protectedCode, List.mem_cons, List.mem_append, List.not_mem_nil, or_false] at h
  rcases h with h | h | h | h | rfl
  · exact .inl h
  · exact .inr (.inl h)
  · cases c with
    | none => cases h
    | some c =>
      rcases List.mem_cons.mp h with rfl | h
      · exact .inr (.inr (.inr (.inr (.inl rfl))))
      · exact .inr (.inr (.inl h))
  · cases f with
    | none => cases h
    | some f =>
      rcases List.mem_cons.mp h with rfl | h
      · exact .inr (.inr (.inr (.inr (.inl rfl))))
      · rcases List.mem_append.mp h with h | h
        · exact .inr (.inr (.inr (.inl h)))
        · rw [List.mem_singleton.mp h]
          exact .inr (.inr (.inr (.inr (.inr rfl))))
  · exact .inr (.inr (.inr (.inr (.inl rfl))))

/-- Code laid out by constructs with numbers from `lo` up to `hi`. The labels in `targets` can be jumped
to, those in `near` stand in the same part of the same region, and those in `own` are defined here for
the construct around. In sealed code a protected construct has a handler or a cleanup, and no jump
leaves a cleanup. -/
inductive Laid (sealed : Bool) (pool : List Value) :
    (targets near : List String) → (lo hi : Nat) → (own : List String) → List Statement → Prop
  | nil {targets near : List String} {n : Nat} : Laid sealed pool targets near n n [] []
  | append {targets near own own' : List String} {lo mid hi : Nat} {a b : List Statement} :
      Laid sealed pool targets near lo mid own a → Laid sealed pool targets near mid hi own' b →
      Laid sealed pool targets near lo hi (own ++ own') (a ++ b)
  | statement {targets near : List String} {n : Nat} {s : Statement} : s.op.isOrdinary = true →
      Laid sealed pool targets near n n [] [s]
  | branch {targets near : List String} {n : Nat} {s : Statement} {l : String} :
      s.op.isBranch = true → s.target? = some l → l ∈ targets →
      (s.op.isConditionalBranch = true → l ∈ near) → Laid sealed pool targets near n n [] [s]
  | switch {targets near : List String} {n : Nat} {s : Statement} : s.op = .switch →
      (∀ l ∈ FlowGraph.switchTargets s pool, l ∈ near) → Laid sealed pool targets near n n [] [s]
  | label {targets near : List String} {n : Nat} {l : String} :
      Laid sealed pool targets near n n [l] [.label l]
  | construct {targets near labels own : List String} {n hi : Nat} {part : List Statement} :
      ConstructLabels n [] labels → own.Perm labels →
      Laid sealed pool (labels ++ targets) (labels ++ near) (n + 1) hi own part →
      Laid sealed pool targets near n hi [] part
  | protect {targets near clauses own : List String} {n mid mid' hi : Nat} {c f : Option String}
      {e : String} {body handler cleanup : List Statement} :
      ConstructLabels n (c.toList ++ f.toList) (e :: clauses) →
      (sealed = true → c.isSome ∨ f.isSome) →
      Laid sealed pool (e :: targets) [] (n + 1) mid [] body → Closed body →
      own.Perm clauses → Laid sealed pool (clauses ++ e :: targets) clauses mid mid' own handler →
      (c = none → handler = []) → (c.isSome → Closed handler) →
      Laid sealed pool (if sealed then [] else targets) [] mid' hi [] cleanup →
      (f = none → cleanup = []) →
      Laid sealed pool targets near n hi [] (protectedCode c f e body handler cleanup)

/-- Statements that mark nothing and go nowhere are laid out anywhere. -/
theorem Laid.of_isOrdinary {sealed : Bool} {pool : List Value} {targets near : List String} {n : Nat}
    {code : List Statement} (h : ∀ s ∈ code, s.op.isOrdinary = true) :
    Laid sealed pool targets near n n [] code := by
  induction code with
  | nil => exact .nil
  | cons s rest ih =>
    rw [List.forall_mem_cons] at h
    exact (Laid.statement h.1).append (ih h.2)

/-- Laid out code is laid out also where more labels are around it. -/
theorem Laid.mono {sealed : Bool} {pool : List Value} {targets targets' near near' own : List String}
    {lo hi : Nat} {code : List Statement} (h : Laid sealed pool targets near lo hi own code)
    (htargets : ∀ l ∈ targets, l ∈ targets') (hnear : ∀ l ∈ near, l ∈ near') :
    Laid sealed pool targets' near' lo hi own code := by
  have hunder (labels : List String) {a b : List String} (h : ∀ l ∈ a, l ∈ b) :
      ∀ l ∈ labels ++ a, l ∈ labels ++ b :=
    fun l hl ↦ List.mem_append.mpr ((List.mem_append.mp hl).imp_right (h l))
  induction h generalizing targets' near' with
  | nil => exact .nil
  | append _ _ ih₁ ih₂ => exact (ih₁ htargets hnear).append (ih₂ htargets hnear)
  | statement hs => exact .statement hs
  | branch hs htarget hmem hcond =>
    exact .branch hs htarget (htargets _ hmem) fun hop ↦ hnear _ (hcond hop)
  | switch hs hmem => exact .switch hs fun l hl ↦ hnear l (hmem l hl)
  | label => exact .label
  | construct hlabels hown _ ih => exact .construct hlabels hown (ih (hunder _ htargets) (hunder _ hnear))
  | @protect targets _ clauses own n mid mid' hi c f e body handler cleanup hlabels hsealed _ hclosed hown _
      hempty hclosed' _ hempty' ihb ihh ihc =>
    have hend : ∀ l ∈ e :: targets, l ∈ e :: targets' := hunder [e] htargets
    refine .protect hlabels hsealed (ihb hend fun _ ↦ id) hclosed hown (ihh (hunder _ hend) fun _ ↦ id)
      hempty hclosed' (ihc ?_ fun _ ↦ id) hempty'
    cases sealed with
    | false => exact htargets
    | true => exact fun _ ↦ id

/-! ### Labels of laid out code -/

private theorem labelsOf_singleton_of_ne {s : Statement} (h : s.op ≠ .label) : labelsOf [s] = [] := by
  simp [labelsOf, Statement.label?_of_ne h]

/-- A label defines itself. -/
@[simp]
theorem labelsOf_label (l : String) : labelsOf [.label l] = [l] := rfl

/-- Labels that laid out code defines besides those of the construct around: each once, and numbered by
the constructs of the code. -/
structure FreshLabels (lo hi : Nat) (own : List String) (code : List Statement)
    (fresh : List String) : Prop where
  le : lo ≤ hi
  perm : (labelsOf code).Perm (own ++ fresh)
  nodup : fresh.Nodup
  bounds : ∀ l ∈ fresh, lo ≤ constructOf l ∧ constructOf l < hi

namespace FreshLabels

variable {lo mid hi n : Nat} {own own' fresh fresh' labels : List String} {a b : List Statement}
  {s : Statement}

private theorem none (h : labelsOf a = []) : FreshLabels n n [] a [] :=
  ⟨Nat.le_refl n, by rw [h, List.append_nil], List.nodup_nil, by simp⟩

private theorem one (l : String) : FreshLabels n n [l] [.label l] [] :=
  ⟨Nat.le_refl n, .refl _, List.nodup_nil, by simp⟩

private theorem append (h₁ : FreshLabels lo mid own a fresh) (h₂ : FreshLabels mid hi own' b fresh') :
    FreshLabels lo hi (own ++ own') (a ++ b) (fresh ++ fresh') where
  le := Nat.le_trans h₁.le h₂.le
  perm := by
    rw [labelsOf_append]
    refine (h₁.perm.append h₂.perm).trans ?_
    rw [List.append_assoc, List.append_assoc]
    apply List.Perm.append_left
    rw [← List.append_assoc, ← List.append_assoc]
    exact List.perm_append_comm.append_right fresh'
  nodup := by
    rw [List.nodup_append]
    refine ⟨h₁.nodup, h₂.nodup, ?_⟩
    rintro l hl l' hl' rfl
    have h := h₁.bounds l hl
    have h' := h₂.bounds l hl'
    omega
  bounds := by
    intro l hl
    have hlo := h₁.le
    have hhi := h₂.le
    rcases List.mem_append.mp hl with hl | hl
    · have := h₁.bounds l hl
      omega
    · have := h₂.bounds l hl
      omega

/-- Closing a construct makes its labels part of the code. -/
private theorem construct (hnodup : labels.Nodup) (hn : ∀ l ∈ labels, constructOf l = n)
    (hown : own.Perm labels) (h : FreshLabels (n + 1) hi own a fresh) :
    FreshLabels n hi [] a (own ++ fresh) where
  le := Nat.le_trans (Nat.le_succ n) h.le
  perm := h.perm
  nodup := by
    rw [List.nodup_append]
    refine ⟨hown.nodup_iff.mpr hnodup, h.nodup, ?_⟩
    rintro l hl l' hl' rfl
    have hln := hn l (hown.mem_iff.mp hl)
    have := h.bounds l hl'
    omega
  bounds := by
    intro l hl
    have hle := h.le
    rcases List.mem_append.mp hl with hl | hl
    · have := hn l (hown.mem_iff.mp hl)
      omega
    · have := h.bounds l hl
      omega

end FreshLabels

/-- Laid out code defines no label twice. -/
theorem Laid.freshLabels {sealed : Bool} {pool : List Value} {targets near own : List String}
    {lo hi : Nat} {code : List Statement} (h : Laid sealed pool targets near lo hi own code) :
    ∃ fresh, FreshLabels lo hi own code fresh := by
  induction h with
  | nil => exact ⟨[], .none rfl⟩
  | append _ _ ih₁ ih₂ =>
    obtain ⟨fresh, h₁⟩ := ih₁
    obtain ⟨fresh', h₂⟩ := ih₂
    exact ⟨_, h₁.append h₂⟩
  | @statement _ _ _ s hs =>
    refine ⟨[], .none (labelsOf_singleton_of_ne ?_)⟩
    intro hop
    rw [hop] at hs
    cases hs
  | @branch _ _ _ s _ hs =>
    refine ⟨[], .none (labelsOf_singleton_of_ne ?_)⟩
    intro hop
    rw [hop] at hs
    cases hs
  | switch hs =>
    refine ⟨[], .none (labelsOf_singleton_of_ne ?_)⟩
    rw [hs]
    decide
  | @label _ _ _ l => exact ⟨[], .one l⟩
  | construct hlabels hown _ ih =>
    obtain ⟨fresh, h⟩ := ih
    exact ⟨_, h.construct hlabels.nodup hlabels.number hown⟩
  | @protect _ _ clauses own n mid mid' hi c f e body handler cleanup hlabels _ _ _ hown _ hc _ _ hf
      ihb ihh ihc =>
    obtain ⟨freshB, hb⟩ := ihb
    obtain ⟨freshH, hh⟩ := ihh
    obtain ⟨freshC, hc'⟩ := ihc
    have htry : FreshLabels (n + 1) (n + 1) []
        [.of .enterTry [Lowering.optionalLabel c, Lowering.optionalLabel f, .label e]] [] := .none rfl
    have hhandler : FreshLabels mid mid' (c.toList ++ own)
        (c.elim [] fun c ↦ .label c :: handler) freshH := by
      cases c with
      | none =>
        rw [hc rfl] at hh
        exact hh
      | some c => exact (FreshLabels.one c).append hh
    have hcleanup : FreshLabels mid' hi f.toList
        (f.elim [] fun f ↦ Statement.label f :: (cleanup ++ [Statement.of .endFinally []])) freshC := by
      cases f with
      | none =>
        rw [hf rfl] at hc'
        exact hc'
      | some f =>
        have hend : FreshLabels hi hi [] [.of .endFinally []] [] := .none rfl
        have := (FreshLabels.one f).append (hc'.append hend)
        rwa [List.append_nil, List.append_nil, List.append_nil] at this
    have hall := htry.append (hb.append (hhandler.append (hcleanup.append (FreshLabels.one e))))
    refine ⟨_, FreshLabels.construct hlabels.nodup hlabels.number ?_ hall⟩
    rw [List.nil_append, List.nil_append, List.append_assoc, List.append_assoc]
    apply List.Perm.append_left
    refine (hown.append_right _).trans (List.perm_append_comm.trans ?_)
    rw [List.append_assoc, List.singleton_append]

/-- Laid out code defines no label twice. -/
theorem Laid.nodup_labelsOf {sealed : Bool} {pool : List Value} {targets near : List String}
    {lo hi : Nat} {code : List Statement} (h : Laid sealed pool targets near lo hi [] code) :
    (labelsOf code).Nodup := by
  obtain ⟨fresh, hf⟩ := h.freshLabels
  exact hf.perm.nodup_iff.mpr hf.nodup

/-- Laid out code has no leaves yet. -/
theorem Laid.ne_leave {sealed : Bool} {pool : List Value} {targets near own : List String}
    {lo hi : Nat} {code : List Statement} (h : Laid sealed pool targets near lo hi own code) :
    ∀ s ∈ code, s.op ≠ .leave := by
  have hsingle {s : Statement} (hop : s.op ≠ .leave) : ∀ t ∈ [s], t.op ≠ .leave :=
    List.forall_mem_singleton.mpr hop
  induction h with
  | nil => exact List.forall_mem_nil _
  | append _ _ ih ih' => exact List.forall_mem_append.mpr ⟨ih, ih'⟩
  | @statement _ _ _ s hs | @branch _ _ _ s _ hs =>
    refine hsingle fun hop ↦ ?_
    rw [hop] at hs
    cases hs
  | switch hs => exact hsingle (by rw [hs]; nofun)
  | label => exact hsingle nofun
  | construct _ _ _ ih => exact ih
  | protect _ _ _ _ _ _ _ _ _ _ ihb ihh ihc =>
    intro s hs
    rcases mem_protectedCode hs with rfl | hs | hs | hs | hop | hop
    · rintro ⟨⟩
    · exact ihb s hs
    · exact ihh s hs
    · exact ihc s hs
    · rw [hop]
      decide
    · rw [hop]
      decide

end MethodCompiler
