import Mathlib
import Handheld.Proofs.Assembly

/-!
# What a listing tells

The text of an instruction tells which instruction it is. A literal begins with a dollar or
a sign and goes on in digits, so what stands around it, the frame of the text, is the same
for all literals of an operation. The frames tell the operations of both tables apart, but
for some that have no literal, and those have different texts. Within one operation the
literal can be read back.
-/

namespace Handheld

-- ---------------------------------------------------------------------------
-- Numbers in text
-- ---------------------------------------------------------------------------

namespace Text

theorem hexDigit_injective : ∀ m < 16, ∀ n < 16, hexDigit m = hexDigit n → m = n := by
  decide

theorem hexDigits_injective {width m n : Nat} (hm : m < 16 ^ width) (hn : n < 16 ^ width)
    (h : hexDigits width m = hexDigits width n) : m = n := by
  induction width generalizing m n with
  | zero => omega
  | succ width ih =>
    rw [Nat.pow_succ, ← Nat.div_lt_iff_lt_mul (by decide)] at hm hn
    obtain ⟨hhigh, hlow⟩ := List.append_inj' h rfl
    have hdigit : m % 16 = n % 16 :=
      hexDigit_injective _ (Nat.mod_lt _ (by decide)) _ (Nat.mod_lt _ (by decide))
        (List.singleton_inj.mp hlow)
    rw [← Nat.div_add_mod m 16, ← Nat.div_add_mod n 16, ih hm hn hhigh, hdigit]

theorem hexByte_injective : Function.Injective hexByte := fun v w h =>
  UInt8.toNat_inj.mp (hexDigits_injective v.toNat_lt w.toNat_lt (String.ofList_injective h))

theorem hexWord_injective : Function.Injective hexWord := fun v w h =>
  UInt16.toNat_inj.mp (hexDigits_injective v.toNat_lt w.toNat_lt (String.ofList_injective h))

theorem signed_ofNat (n : Nat) : signed (Int.ofNat n) = "+" ++ n.repr := if_neg (by simp)

theorem signed_negSucc (n : Nat) : signed (Int.negSucc n) = "-" ++ (n + 1).repr :=
  if_pos (Int.negSucc_lt_zero n)

theorem signed_injective : Function.Injective signed := by
  have hne (s t : String) : "+" ++ s ≠ "-" ++ t := fun h => by
    simpa using congrArg (·.toList.head?) h
  intro i j h
  rcases i with m | m <;> rcases j with n | n <;> simp only [signed_ofNat, signed_negSucc] at h
  · rw [Nat.repr_injective ((String.append_right_inj _).mp h)]
  · exact absurd h (hne _ _)
  · exact absurd h.symm (hne _ _)
  · rw [Nat.succ.inj (Nat.repr_injective ((String.append_right_inj _).mp h))]

-- ---------------------------------------------------------------------------
-- Frames
-- ---------------------------------------------------------------------------

/-- The bytes of a text as numbers. They are what the kernel can compute, where the characters
would have to be decoded from them. -/
def codes (text : String) : List Nat := text.toByteArray.data.toList.map UInt8.toNat

theorem codes_append (s t : String) : codes (s ++ t) = codes s ++ codes t := by
  simp [codes, String.toByteArray_append, ByteArray.data_append]

theorem codes_eq {s : String} (h : ∀ c ∈ s.toList, c.toNat < 128) :
    codes s = s.toList.map Char.toNat := by
  have hchar : ∀ c ∈ s.toList, (String.utf8EncodeChar c).map UInt8.toNat = [c.toNat] := by
    intro c hc
    have hlt : c.val.toNat < 128 := h c hc
    rw [String.utf8EncodeChar]
    simp only [if_pos (Nat.le_of_lt_succ hlt), List.map_singleton, UInt8.toNat_ofNat']
    rw [Nat.mod_eq_of_lt (by omega)]
    rfl
  have hbytes : s.toByteArray.data.toList = s.toList.flatMap String.utf8EncodeChar := by
    conv_lhs => rw [← String.ofList_toList (s := s), String.toByteArray_ofList,
      List.utf8Encode, List.data_toByteArray]
  rw [codes, hbytes, List.map_flatMap, List.map_eq_flatMap]
  exact List.flatMap_congr hchar

def isMark (code : Nat) : Bool := code == 36 || code == 43 || code == 45

def isDigit (code : Nat) : Bool := (48 ≤ code && code ≤ 57) || (65 ≤ code && code ≤ 70)

/-- What stands before the first mark and after the digits that follow it, with a zero
between the two. -/
def withoutNumeral : List Nat → List Nat
  | [] => []
  | c :: cs => if isMark c then 0 :: cs.dropWhile isDigit else c :: withoutNumeral cs

def frame (text : String) : List Nat := withoutNumeral (codes text)

def IsNumeral (text : String) : Prop :=
  ∃ mark digits, codes text = mark :: digits ∧ isMark mark = true ∧ ∀ c ∈ digits, isDigit c = true

def Unmarked (text : String) : Prop := ∀ c ∈ codes text, isMark c = false

instance (text : String) : Decidable (Unmarked text) :=
  inferInstanceAs (Decidable (∀ c ∈ codes text, isMark c = false))

theorem Unmarked.append {s t : String} (hs : Unmarked s) (ht : Unmarked t) :
    Unmarked (s ++ t) := by
  rw [Unmarked, codes_append]
  exact List.forall_mem_append.mpr ⟨hs, ht⟩

theorem withoutNumeral_append {cs : List Nat} (h : ∀ c ∈ cs, isMark c = false)
    (rest : List Nat) : withoutNumeral (cs ++ rest) = cs ++ withoutNumeral rest := by
  induction cs with
  | nil => rfl
  | cons c cs ih =>
    obtain ⟨hc, hcs⟩ := List.forall_mem_cons.mp h
    rw [List.cons_append, withoutNumeral, if_neg (by simp [hc]), ih hcs, List.cons_append]

theorem frame_append {before numeral after : String} (hbefore : Unmarked before)
    (hnumeral : IsNumeral numeral) (hafter : ∀ c ∈ (codes after).head?, isDigit c = false) :
    frame (before ++ numeral ++ after) = codes before ++ 0 :: codes after := by
  obtain ⟨mark, digits, hcodes, hmark, hdigits⟩ := hnumeral
  have hrest : (codes after).dropWhile isDigit = codes after := by
    cases h : codes after with
    | nil => rfl
    | cons c cs => exact List.dropWhile_cons_of_neg (by simp [hafter c (by rw [h]; rfl)])
  rw [frame, codes_append, codes_append, hcodes, List.append_assoc,
    withoutNumeral_append hbefore, List.cons_append, withoutNumeral, if_pos hmark,
    List.dropWhile_append_of_pos hdigits, hrest]

theorem IsNumeral.append {s t : String} (hs : IsNumeral s)
    (ht : ∀ c ∈ codes t, isDigit c = true) : IsNumeral (s ++ t) := by
  obtain ⟨mark, digits, hcodes, hmark, hdigits⟩ := hs
  exact ⟨mark, digits ++ codes t, by rw [codes_append, hcodes, List.cons_append], hmark,
    List.forall_mem_append.mpr ⟨hdigits, ht⟩⟩

theorem isDigit_codes {s : String} (h : ∀ c ∈ s.toList, isDigit c.toNat = true) :
    ∀ c ∈ codes s, isDigit c = true := by
  have hascii : ∀ c ∈ s.toList, c.toNat < 128 := fun c hc => by
    have hdigit := h c hc
    simp only [isDigit, Bool.or_eq_true, Bool.and_eq_true, decide_eq_true_eq] at hdigit
    omega
  rw [codes_eq hascii]
  exact List.forall_mem_map.mpr h

theorem isDigit_hexDigits (width n : Nat) : ∀ c ∈ hexDigits width n, isDigit c.toNat = true := by
  have hdigit : ∀ n < 16, isDigit (hexDigit n).toNat = true := by decide
  induction width generalizing n with
  | zero => exact List.forall_mem_nil _
  | succ width ih =>
    exact List.forall_mem_append.mpr
      ⟨ih _, List.forall_mem_singleton.mpr (hdigit _ (Nat.mod_lt _ (by decide)))⟩

theorem isDigit_hexByte (v : UInt8) : ∀ c ∈ codes (hexByte v), isDigit c = true :=
  isDigit_codes (String.toList_ofList ▸ isDigit_hexDigits 2 v.toNat)

theorem isDigit_hexWord (v : UInt16) : ∀ c ∈ codes (hexWord v), isDigit c = true :=
  isDigit_codes (String.toList_ofList ▸ isDigit_hexDigits 4 v.toNat)

theorem isDigit_repr (n : Nat) : ∀ c ∈ codes n.repr, isDigit c = true := by
  refine isDigit_codes fun c hc => ?_
  rw [Nat.toList_repr] at hc
  have hdigit := Nat.isDigit_of_mem_toDigits (by decide) (by decide) hc
  simp only [Char.isDigit, Bool.and_eq_true, decide_eq_true_eq] at hdigit
  simp only [isDigit, Bool.or_eq_true, Bool.and_eq_true, decide_eq_true_eq]
  exact .inl hdigit

theorem isNumeral_signed (i : Int) : IsNumeral (signed i) := by
  rcases i with n | n
  · rw [signed_ofNat]
    exact .append ⟨43, [], by decide +kernel, rfl, List.forall_mem_nil _⟩ (isDigit_repr n)
  · rw [signed_negSucc]
    exact .append ⟨45, [], by decide +kernel, rfl, List.forall_mem_nil _⟩ (isDigit_repr (n + 1))

end Text

-- ---------------------------------------------------------------------------
-- Literals
-- ---------------------------------------------------------------------------

open Text

/-- Every value is written as a numeral of its own. -/
structure Numerals {α : Type} (write : α → String) : Prop where
  numeral (v : α) : IsNumeral (write v)
  injective : Function.Injective write

namespace Numerals

theorem hexByte : Numerals fun v => "$" ++ hexByte v where
  numeral v := .append ⟨36, [], by decide +kernel, rfl, List.forall_mem_nil _⟩ (isDigit_hexByte v)
  injective _ _ h := hexByte_injective ((String.append_right_inj _).mp h)

theorem lastPage : Numerals fun v => "$FF" ++ Text.hexByte v where
  numeral v := .append ⟨36, [70, 70], by decide +kernel, rfl, by decide⟩ (isDigit_hexByte v)
  injective _ _ h := hexByte_injective ((String.append_right_inj _).mp h)

theorem hexWord : Numerals fun v => "$" ++ hexWord v where
  numeral v := .append ⟨36, [], by decide +kernel, rfl, List.forall_mem_nil _⟩ (isDigit_hexWord v)
  injective _ _ h := hexWord_injective ((String.append_right_inj _).mp h)

theorem signed : Numerals fun v => signed (Byte.signed v) where
  numeral _ := isNumeral_signed _
  injective _ _ h := Byte.eq_of_signed_eq (signed_injective h)

end Numerals

theorem Literal.exists_byte : ∀ l : Literal, l.kind = .byte → ∃ v, Literal.byte v = l
  | .byte v, _ => ⟨v, rfl⟩

theorem Literal.exists_word : ∀ l : Literal, l.kind = .word → ∃ v, Literal.word v = l
  | .word v, _ => ⟨v, rfl⟩

theorem Literal.eq_none : ∀ l : Literal, l.kind = .none → l = .none
  | .none, _ => rfl

-- ---------------------------------------------------------------------------
-- Operations
-- ---------------------------------------------------------------------------

namespace Operation

/-- The text of the operation has its literal, a numeral, between two others. -/
inductive Frames (op : Operation) : Prop
  | between {α : Type} {make : α → Literal} {write : α → String} {before after : String}
      (numerals : Numerals write) (made : ∀ l, l.kind = op.literal → ∃ v, make v = l)
      (listing : ∀ v, op.listing (make v) = before ++ write v ++ after)
      (unmarked : Unmarked before) (undigited : ∀ c ∈ (codes after).head?, isDigit c = false)

theorem unmarked_name (o : Operand) : Unmarked o.name := by
  cases o with
  | memory => decide +kernel
  | register r => cases r <;> decide +kernel

theorem unmarked_wordName (r : WordRegister) : Unmarked r.name := by
  cases r <;> decide +kernel

theorem unmarked_aluName (op : AluOp) : Unmarked op.name := by
  cases op <;> decide +kernel

theorem unmarked_leadText (c : Option Condition) : Unmarked (Condition.leadText c) := by
  rcases c with - | c
  · decide +kernel
  · cases c <;> decide +kernel

theorem cellText_word (v : UInt16) :
    (Literal.word v).cellText = "(" ++ ("$" ++ hexWord v) ++ ")" := by
  rw [← String.append_assoc]
  rfl

theorem lastPageText_byte (v : UInt8) :
    (Literal.byte v).lastPageText = "(" ++ ("$FF" ++ hexByte v) ++ ")" := by
  rw [← String.append_assoc]
  rfl

theorem append_parentheses (before numeral after : String) :
    before ++ ("(" ++ numeral ++ ")") ++ after =
      before ++ "(" ++ numeral ++ (")" ++ after) := by
  simp only [String.append_assoc]

theorem frames (op : Operation) (h : op.literal ≠ .none) : op.Frames := by
  have last (s : String) : s = s ++ "" := String.append_empty.symm
  cases op with
  | loadLiteral target =>
    exact .between .hexByte Literal.exists_byte (fun _ => last _)
      (.append (.append (by decide +kernel) (unmarked_name target)) (by decide +kernel))
      (by decide +kernel)
  | loadWord target =>
    exact .between .hexWord Literal.exists_word (fun _ => last _)
      (.append (.append (by decide +kernel) (unmarked_wordName target)) (by decide +kernel))
      (by decide +kernel)
  | aluLiteral op =>
    exact .between .hexByte Literal.exists_byte (fun _ => last _)
      (.append (unmarked_aluName op) (by decide +kernel)) (by decide +kernel)
  | hlFromStackPointer =>
    exact .between .signed Literal.exists_byte (fun _ => last _) (by decide +kernel)
      (by decide +kernel)
  | addStackPointer =>
    exact .between .signed Literal.exists_byte (fun _ => last _) (by decide +kernel)
      (by decide +kernel)
  | jump c =>
    exact .between .hexWord Literal.exists_word (fun _ => last _)
      (.append (by decide +kernel) (unmarked_leadText c)) (by decide +kernel)
  | jumpRelative c =>
    exact .between .signed Literal.exists_byte (fun _ => last _)
      (.append (by decide +kernel) (unmarked_leadText c)) (by decide +kernel)
  | call c =>
    exact .between .hexWord Literal.exists_word (fun _ => last _)
      (.append (by decide +kernel) (unmarked_leadText c)) (by decide +kernel)
  | storeAt =>
    exact .between .hexWord Literal.exists_word
      (fun v => (congrArg ("LD " ++ · ++ ", A") (cellText_word v)).trans
        (append_parentheses _ _ _))
      (by decide +kernel) (by decide +kernel)
  | storeStackPointer =>
    exact .between .hexWord Literal.exists_word
      (fun v => (congrArg ("LD " ++ · ++ ", SP") (cellText_word v)).trans
        (append_parentheses _ _ _))
      (by decide +kernel) (by decide +kernel)
  | loadFrom =>
    exact .between .hexWord Literal.exists_word
      (fun v => (congrArg ("LD A, " ++ ·) (cellText_word v)).trans
        ((last _).trans (append_parentheses _ _ _)))
      (by decide +kernel) (by decide +kernel)
  | storeLastPage =>
    exact .between .lastPage Literal.exists_byte
      (fun v => (congrArg ("LDH " ++ · ++ ", A") (lastPageText_byte v)).trans
        (append_parentheses _ _ _))
      (by decide +kernel) (by decide +kernel)
  | loadLastPage =>
    exact .between .lastPage Literal.exists_byte
      (fun v => (congrArg ("LDH A, " ++ ·) (lastPageText_byte v)).trans
        ((last _).trans (append_parentheses _ _ _)))
      (by decide +kernel) (by decide +kernel)
  | _ => exact absurd rfl h

theorem Frames.inj {op : Operation} {l l' : Literal} (h : op.Frames) (hl : l.kind = op.literal)
    (hl' : l'.kind = op.literal) (heq : op.listing l = op.listing l') : l = l' := by
  obtain ⟨hwrite, hmade, hlisting, -, -⟩ := h
  obtain ⟨v, rfl⟩ := hmade l hl
  obtain ⟨v', rfl⟩ := hmade l' hl'
  rw [hlisting, hlisting, String.append_left_inj, String.append_right_inj] at heq
  rw [hwrite.injective heq]

theorem Frames.frame_listing {op : Operation} {l l' : Literal} (h : op.Frames)
    (hl : l.kind = op.literal) (hl' : l'.kind = op.literal) :
    frame (op.listing l) = frame (op.listing l') := by
  obtain ⟨hwrite, hmade, hlisting, hbefore, hafter⟩ := h
  obtain ⟨v, rfl⟩ := hmade l hl
  obtain ⟨v', rfl⟩ := hmade l' hl'
  rw [hlisting, hlisting, frame_append hbefore (hwrite.numeral v) hafter,
    frame_append hbefore (hwrite.numeral v') hafter]

variable (op : Operation) {l l' : Literal} (hl : l.kind = op.literal) (hl' : l'.kind = op.literal)

include hl hl'

theorem listing_inj (h : op.listing l = op.listing l') : l = l' := by
  by_cases hop : op.literal = .none
  · rw [l.eq_none (hl.trans hop), l'.eq_none (hl'.trans hop)]
  · exact (op.frames hop).inj hl hl' h

theorem frame_listing : frame (op.listing l) = frame (op.listing l') := by
  by_cases hop : op.literal = .none
  · rw [l.eq_none (hl.trans hop), l'.eq_none (hl'.trans hop)]
  · exact (op.frames hop).frame_listing hl hl'

end Operation

-- ---------------------------------------------------------------------------
-- The two tables
-- ---------------------------------------------------------------------------

open Processor (operationOf step traceEntry)

def LiteralKind.sample : LiteralKind → Literal
  | .none => .none
  | .byte => .byte 0
  | .word => .word 0

theorem LiteralKind.kind_sample (k : LiteralKind) : k.sample.kind = k := by
  cases k <;> rfl

namespace Listing

def entries : List (Bool × UInt8) :=
  ([false, true].flatMap fun prefixed =>
      (List.range 256).map fun opcode => (prefixed, UInt8.ofNat opcode)).filter fun e =>
    (operationOf e.1 e.2).implemented && operationOf e.1 e.2 != .extend

def sampleText (e : Bool × UInt8) : String :=
  (operationOf e.1 e.2).listing (operationOf e.1 e.2).literal.sample

/-- The frame of a text as one number. -/
def fingerprint (text : String) : Nat := (frame text).foldl (fun n code => 256 * n + code) 0

def Apart (e e' : Bool × UInt8) : Prop :=
  fingerprint (sampleText e) = fingerprint (sampleText e') →
    e = e' ∨ (operationOf e.1 e.2).literal = .none ∧ (operationOf e'.1 e'.2).literal = .none ∧
      sampleText e ≠ sampleText e'

instance : DecidableRel Apart := fun _ _ => inferInstanceAs (Decidable (_ → _))

instance : Std.Symm Apart where
  symm _ _ h heq := (h heq.symm).imp Eq.symm fun ⟨hn, hn', hne⟩ => ⟨hn', hn, hne.symm⟩

/-- Entries are compared only if their fingerprints leave the same remainder. -/
theorem pairwise_apart : ∀ k < 17,
    (entries.filter fun e => fingerprint (sampleText e) % 17 = k).Pairwise Apart := by
  decide +kernel

theorem apart {e e' : Bool × UInt8} (he : e ∈ entries) (he' : e' ∈ entries) : Apart e e' := by
  intro heq
  have hclass := pairwise_apart _ (Nat.mod_lt (fingerprint (sampleText e)) (by decide))
  refine hclass.forall_of_forall (fun _ _ _ => .inl rfl) ?_ ?_ heq
  · exact List.mem_filter.mpr ⟨he, decide_eq_true rfl⟩
  · exact List.mem_filter.mpr ⟨he', decide_eq_true (by rw [heq])⟩

end Listing

namespace Decoded

open Listing

/-- An instruction that can be executed, from one of the two tables, with a literal of the
kind that its entry takes. -/
structure Listed (d : Decoded) : Prop where
  operation_eq : d.operation = operationOf d.prefixed d.opcode
  implemented : d.operation.implemented = true
  ne_extend : d.operation ≠ .extend
  literal_kind : d.literal.kind = d.operation.literal

theorem Listed.mem_entries {d : Decoded} (h : d.Listed) : (d.prefixed, d.opcode) ∈ entries := by
  have hop := h.operation_eq
  refine List.mem_filter.mpr ⟨List.mem_flatMap.mpr ⟨d.prefixed, ?_, ?_⟩, ?_⟩
  · cases d.prefixed <;> decide
  · exact List.mem_map.mpr ⟨d.opcode.toNat, List.mem_range.mpr d.opcode.toNat_lt, by simp⟩
  · simp only [← hop, h.implemented, Bool.true_and, bne_iff_ne]
    exact h.ne_extend

theorem Listed.fingerprint_eq {d : Decoded} (h : d.Listed) :
    fingerprint d.listing = fingerprint (sampleText (d.prefixed, d.opcode)) := by
  rw [sampleText, ← h.operation_eq, Decoded.listing, fingerprint, fingerprint,
    d.operation.frame_listing h.literal_kind (LiteralKind.kind_sample _)]

theorem Listed.listing_eq {d : Decoded} (h : d.Listed) (hn : d.operation.literal = .none) :
    d.listing = sampleText (d.prefixed, d.opcode) := by
  rw [sampleText, ← h.operation_eq, Decoded.listing, d.literal.eq_none (h.literal_kind.trans hn),
    hn, LiteralKind.sample]

theorem Listed.inj {d d' : Decoded} (h : d.Listed) (h' : d'.Listed)
    (heq : d.listing = d'.listing) :
    d.prefixed = d'.prefixed ∧ d.opcode = d'.opcode ∧ d.literal = d'.literal := by
  have hfingerprint : fingerprint (sampleText (d.prefixed, d.opcode)) =
      fingerprint (sampleText (d'.prefixed, d'.opcode)) := by
    rw [← h.fingerprint_eq, ← h'.fingerprint_eq, heq]
  rcases apart h.mem_entries h'.mem_entries hfingerprint with hentry | ⟨hn, hn', hne⟩
  · obtain ⟨hprefixed, hopcode⟩ := Prod.mk.inj hentry
    have hop : d'.operation = d.operation := by
      rw [h.operation_eq, h'.operation_eq, hprefixed, hopcode]
    refine ⟨hprefixed, hopcode, d.operation.listing_inj h.literal_kind ?_ ?_⟩
    · rw [← hop, h'.literal_kind]
    · rwa [Decoded.listing, Decoded.listing, hop] at heq
  · rw [← h.operation_eq] at hn
    rw [← h'.operation_eq] at hn'
    rw [← h.listing_eq hn, ← h'.listing_eq hn'] at hne
    exact absurd heq hne

theorem Listed.length_bytes {d : Decoded} (h : d.Listed) : d.bytes.length = d.size := by
  rw [bytes, Opcode.length_bytes, h.literal_kind, size, opcodeSize]

end Decoded

-- ---------------------------------------------------------------------------
-- What is executed
-- ---------------------------------------------------------------------------

namespace Bus

variable {β : Type} [Bus β] {b : β} {a : UInt16}

theorem holds_literalAt (k : LiteralKind) : Holds b a (literalAt b a k).bytes := by
  cases k with
  | none => exact holds_nil
  | byte => exact .cons rfl holds_nil
  | word => exact .cons (Word.high_ofBytes _ _).symm (.cons (Word.low_ofBytes _ _).symm holds_nil)

theorem holds_instructionAt (b : β) (a : UInt16) : Holds b a (instructionAt b a).bytes := by
  by_cases h : peek b a = Opcode.extension
  · rw [instructionAt_of_extension h]
    exact .cons h (.cons rfl holds_nil)
  · rw [instructionAt_of_ne h]
    exact .cons rfl (holds_literalAt _)

theorem kind_literalAt (k : LiteralKind) : (literalAt b a k).kind = k := by
  cases k <;> rfl

end Bus

namespace Processor

variable {β β' : Type} [Bus β] [Bus β']

theorem listed_of_decoded {p : Processor β} {d : Decoded} (h : p.decoded? = some d) :
    d.Listed := by
  obtain ⟨rfl, hi, -⟩ := decoded?_eq_some_iff.mp h
  refine ⟨Bus.instructionAt_operation _ _, hi, Bus.instructionAt_ne_extend _ _, ?_⟩
  rw [Bus.instructionAt_literal, Bus.kind_literalAt]

/-- Instructions with the same text come from the same table and have the same opcode and
the same literal. So what a step enters in the trace tells, by its address and text, which
bytes were read and executed. -/
theorem listing_determines :
    (∀ d d' : Decoded, d.Listed → d'.Listed → d.listing = d'.listing →
      d.prefixed = d'.prefixed ∧ d.opcode = d'.opcode ∧ d.literal = d'.literal) ∧
    ∀ (p : Processor β) (p' : Processor β') (d d' : Decoded),
      p.decoded? = some d → p'.decoded? = some d' →
      let e := traceEntry d
      let e' := traceEntry d'
      (step.run p).state.trace = p.trace.push e ∧
        Bus.Holds p.bus e.address d.bytes ∧ Bus.Readable p.bus e.address d.bytes.length ∧
        (e.address = e'.address → e.listing = e'.listing → e = e' ∧ d.bytes = d'.bytes) := by
  refine ⟨fun d d' h h' heq => h.inj h' heq, fun p p' d d' hd hd' => ?_⟩
  intro e e'
  have hlisted := listed_of_decoded hd
  have htrace := trace_step p
  rw [hd] at htrace
  obtain ⟨hat, -, hreadable⟩ := decoded?_eq_some_iff.mp hd
  have haddress : p.registers.pc = e.address := by
    show _ = d.address
    rw [← hat, Bus.instructionAt_address]
  refine ⟨htrace, ?_, ?_, fun ha hl => ?_⟩
  · rw [← haddress, ← hat]
    exact Bus.holds_instructionAt _ _
  · rw [← haddress, hlisted.length_bytes]
    exact hreadable
  · obtain ⟨hprefixed, hopcode, hliteral⟩ := hlisted.inj (listed_of_decoded hd') hl
    constructor
    · show TraceEntry.mk d.address d.opcode d.prefixed d.listing = ⟨_, _, _, _⟩
      rw [show d.address = d'.address from ha, hprefixed, hopcode,
        show d.listing = d'.listing from hl]
    · rw [Decoded.bytes, Decoded.bytes, hprefixed, hopcode, hliteral]

def storingInLastPage : Processor FlatMemory where
  bus := .withProgram 0x0150 [0xE0, 0x44]
  registers := { pc := 0x0150 }

def storingAnywhere : Processor FlatMemory where
  bus := .withProgram 0x0150 [0xEA, 0xFF, 0x44]
  registers := { pc := 0x0150 }

theorem listing_determines_store :
    let d : Decoded := ⟨0x0150, false, 0xE0, .storeLastPage, .byte 0x44⟩
    let d' : Decoded := ⟨0x0150, false, 0xEA, .storeAt, .word 0xFF44⟩
    storingInLastPage.decoded? = some d ∧ storingAnywhere.decoded? = some d' ∧
      d.listing = "LDH ($FF44), A" ∧ d'.listing = "LD ($FF44), A" ∧
      (step.run storingInLastPage).state.trace.toList =
        [⟨0x0150, 0xE0, false, "LDH ($FF44), A"⟩] ∧
      Bus.Holds storingInLastPage.bus 0x0150 [0xE0, 0x44] ∧
      Bus.Holds storingAnywhere.bus 0x0150 [0xEA, 0xFF, 0x44] ∧ d.listing ≠ d'.listing := by
  intro d d'
  have hd : storingInLastPage.decoded? = some d := by decide +kernel
  have hd' : storingAnywhere.decoded? = some d' := by decide +kernel
  obtain ⟨htrace, hbytes, -, hsame⟩ := listing_determines.2 _ _ d d' hd hd'
  obtain ⟨-, hbytes', -, -⟩ := listing_determines.2 _ storingInLastPage d' d hd' hd
  refine ⟨hd, hd', by decide +kernel, by decide +kernel, ?_, hbytes, hbytes', fun h => ?_⟩
  · rw [htrace]
    decide +kernel
  · exact absurd (hsame rfl h).2 (by decide)

end Processor

end Handheld
