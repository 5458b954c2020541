/-
# Types read back

The notation of a type is tight: it neither begins nor ends with a blank character
(`tight_chars`).  So trimming takes away just the white space around it, each part of it
is read without loss, and which rule of the reader applies is seen from the outermost
character that the notation puts there:

| type | rule | why no earlier one |
| --- | --- | --- |
| pointer | `readChars_of_star` | |
| array | `readChars_of_brackets` | ends in `]` |
| struct | `readChars_of_bare` | begins with `%`, its name does not end in `*` |
| scalar | `readChars_scalar` | begins with a letter, ends in a letter or a digit |

Inside brackets the first ` x ` is the one after the length, for a length is written with
digits only.  A struct name may hold any of these characters, as it is never searched.
-/

import Mathlib.Algebra.Group.Nat.Defs
import StructuredFlow.Proofs.Text.Blank
import StructuredFlow.Proofs.Text.Decimal
import StructuredFlow.Ty.Reader

namespace StructuredFlow
namespace Ty

/-- A struct name that its notation shows as it is: reading takes no quotes off it and no
star or white space off the notation. -/
structure PlainName (name : String) : Prop where
  /-- There is a name. -/
  ne_empty : name ≠ ""
  /-- It does not begin with a quote. -/
  head_ne : name.toList.head? ≠ some '"'
  /-- It ends neither in a star nor in a quote nor in white space. -/
  last_ne : ∀ c, name.toList.getLast? = some c → c ≠ '*' ∧ c ≠ '"' ∧ Text.isBlank c = false

/-- A type whose notation can be read back: widths and lengths are those that the notation
has room for, and struct names are plain. -/
inductive Readable : Ty → Prop
  /-- No value. -/
  | void : Readable .void
  /-- An integer whose width has 32 bits. -/
  | int {bits : Nat} (h : bits < 2 ^ 32) : Readable (.int bits)
  /-- A floating-point number of one of the two widths that have a name. -/
  | float {bits : Nat} (h : bits = 32 ∨ bits = 64) : Readable (.float bits)
  /-- A pointer. -/
  | ptr {pointee : Ty} (h : Readable pointee) : Readable (.ptr pointee)
  /-- A struct of a plain name. -/
  | struct {name : String} (h : PlainName name) : Readable (.struct name)
  /-- An array whose length has 64 bits. -/
  | array {length : Nat} {element : Ty} (hlength : length < 2 ^ 64) (h : Readable element) :
    Readable (.array length element)

variable {ty : Ty} {text base body name length element : List Char} {n : Nat} {c : Char}

/-! ### Which rule applies -/

/-- **The reader sees a text trimmed only.** -/
theorem readChars_congr {text' : List Char} (h : Text.trim text = Text.trim text') :
    readChars text = readChars text' := by
  rw [readChars, readChars, h]

/-- Brackets are stripped from what stands between two of them. -/
theorem stripBrackets_eq_some : stripBrackets text = some body ↔ text = '[' :: body ++ [']'] := by
  rw [stripBrackets, Option.bind_eq_some_iff]
  simp only [Text.stripFirst_eq_some, Text.stripLast_eq_some]
  constructor
  · rintro ⟨rest, rfl, rfl⟩
    rfl
  · exact fun h => ⟨body ++ [']'], h, rfl⟩

/-- Behind a star at the end stands the type that is pointed to. -/
theorem readChars_of_star (h : Text.trim text = base ++ ['*']) :
    readChars text = (readChars base).map .ptr := by
  have hstar : Text.stripLast '*' (base ++ ['*']) = some base := Text.stripLast_eq_some.mpr rfl
  rw [readChars, h]
  split
  next base' hbase => rw [Option.some.inj (hstar.symm.trans hbase)]
  next hnone => exact absurd (hstar.symm.trans hnone) (by simp)

/-- Between brackets a length and an element are read, with the separator between them. -/
theorem readChars_of_brackets (h : Text.trim text = '[' :: body ++ [']'])
    (hcut : Text.splitOnce " x ".toList body = some (length, element))
    (hlength : Decimal.read Decimal.max64 (Text.trim length) = some n) :
    readChars text = (readChars element).map (.array n) := by
  have hstar : Text.stripLast '*' ('[' :: body ++ [']']) = none := by
    rw [Text.stripLast_eq_none_iff, List.getLast?_concat]
    decide
  have hbody : stripBrackets ('[' :: body ++ [']']) = some body := stripBrackets_eq_some.mpr rfl
  rw [readChars, h]
  split
  next base hbase => exact absurd (hstar.symm.trans hbase) (by simp)
  next =>
    split
    next body' hbody' =>
      obtain rfl := Option.some.inj (hbody.symm.trans hbody')
      split
      next hnone => exact absurd (hcut.symm.trans hnone) (by simp)
      next length' element' hcut' =>
        obtain ⟨rfl, rfl⟩ := Prod.mk.inj (Option.some.inj (hcut.symm.trans hcut'))
        rw [hlength]
    next hnone => exact absurd (hbody.symm.trans hnone) (by simp)

/-- Without a star at its end and brackets around it, a text is a struct or a scalar. -/
theorem readChars_of_bare (hstar : (Text.trim text).getLast? ≠ some '*')
    (hbracket : (Text.trim text).head? ≠ some '[') :
    readChars text = match Text.stripFirst '%' (Text.trim text) with
      | some name => readStructName name
      | none => readScalar (Text.trim text) := by
  have hbody : stripBrackets (Text.trim text) = none := by
    rw [stripBrackets, Text.stripFirst_eq_none_iff.mpr hbracket]
    rfl
  rw [readChars]
  split
  next base hbase => exact absurd (Text.stripLast_eq_none_iff.mpr hstar) (by simp [hbase])
  next =>
    split
    next body' hbody' => exact absurd (hbody.symm.trans hbody') (by simp)
    next => rfl

/-! ### What the notation looks like -/

/-- A digit is not blank. -/
theorem isBlank_eq_false_of_isDigit (h : c.isDigit = true) : Text.isBlank c = false := by
  obtain ⟨hlow, hhigh⟩ : 48 ≤ c.toNat ∧ c.toNat ≤ 57 := Char.isDigit_iff_toNat.mp h
  simp only [Text.isBlank, Text.blankPoints, List.contains_cons, List.contains_nil, Bool.or_false,
    Bool.or_eq_false_iff, beq_eq_false_iff_ne]
  omega

/-- A plain name has no quotes at its ends. -/
theorem PlainName.tight {name : String} (h : PlainName name) :
    Text.Tight (· == '"') name.toList where
  head c hc := by
    have hne := h.head_ne
    rw [hc] at hne
    simpa using hne
  last c hc := by simpa using (h.last_ne c hc).2.1

/-- A plain name has a last character. -/
theorem PlainName.exists_getLast? {name : String} (h : PlainName name) :
    ∃ c, name.toList.getLast? = some c := by
  have hne : name.toList ≠ [] := by simpa using h.ne_empty
  exact ⟨_, List.getLast?_eq_some_getLast hne⟩

/-- An integer is written as `i` and its width. -/
theorem chars_int (bits : Nat) : (Ty.int bits).chars = 'i' :: Decimal.digits bits := rfl

/-- A pointer is written as what it points to and a star. -/
theorem chars_ptr (pointee : Ty) : (Ty.ptr pointee).chars = pointee.chars ++ ['*'] := rfl

/-- A struct is written as `%` and its name. -/
theorem chars_struct (name : String) : (Ty.struct name).chars = '%' :: name.toList := rfl

/-- An array is written as its length and its element between brackets. -/
theorem chars_array (n : Nat) (ty : Ty) : (Ty.array n ty).chars =
    '[' :: (Decimal.digits n ++ " x ".toList ++ ty.chars) ++ [']'] := rfl

/-- The characters of an integer type. -/
theorem mem_chars_int {bits : Nat} (h : c ∈ (Ty.int bits).chars) : c = 'i' ∨ c.isDigit = true := by
  rw [chars_int, List.mem_cons] at h
  exact h.imp_right Decimal.isDigit_of_mem_digits

/-- **A notation neither begins nor ends with white space.** -/
theorem Readable.tight_chars (h : ty.Readable) : Text.Tight Text.isBlank ty.chars := by
  induction h with
  | void => decide
  | @int bits _ =>
    have hall : ∀ c ∈ (Ty.int bits).chars, Text.isBlank c = false := by
      intro c hc
      rcases mem_chars_int hc with rfl | hdigit
      · decide
      · exact isBlank_eq_false_of_isDigit hdigit
    exact ⟨fun c hc => hall c (List.mem_of_head? hc), fun c hc => hall c (List.mem_of_getLast? hc)⟩
  | float h => rcases h with rfl | rfl <;> decide
  | ptr _ ih =>
    refine ⟨fun c hc => ?_, fun c hc => ?_⟩
    · rw [chars_ptr, List.head?_append, Option.or_eq_some_iff] at hc
      rcases hc with hc | ⟨-, hc⟩
      · exact ih.head c hc
      · cases hc
        decide
    · rw [chars_ptr, List.getLast?_concat] at hc
      cases hc
      decide
  | struct h =>
    refine ⟨fun c hc => ?_, fun c hc => ?_⟩
    · cases hc
      decide
    · obtain ⟨d, hd⟩ := h.exists_getLast?
      rw [chars_struct, List.getLast?_cons, hd] at hc
      cases hc
      exact (h.last_ne _ hd).2.2
  | array _ _ _ =>
    rw [chars_array]
    refine ⟨fun c hc => ?_, fun c hc => ?_⟩
    · cases hc
      decide
    · rw [List.getLast?_concat] at hc
      cases hc
      decide

/-- Nothing is trimmed from a readable type. -/
theorem Readable.trim_chars (h : ty.Readable) : Text.trim ty.chars = ty.chars :=
  Text.trimBy_of_tight h.tight_chars

/-! ### Reading the notation -/

/-- Nothing is trimmed from a number. -/
theorem trim_digits (n : Nat) : Text.trim (Decimal.digits n) = Decimal.digits n := by
  have hall : ∀ c ∈ Decimal.digits n, Text.isBlank c = false := fun c hc =>
    isBlank_eq_false_of_isDigit (Decimal.isDigit_of_mem_digits hc)
  exact Text.trimBy_of_tight
    ⟨fun c hc => hall c (List.mem_of_head? hc), fun c hc => hall c (List.mem_of_getLast? hc)⟩

/-- A length is cut off at the first ` x `, whatever the element looks like. -/
theorem splitOnce_length (n : Nat) (element : List Char) :
    Text.splitOnce " x ".toList (Decimal.digits n ++ " x ".toList ++ element) =
      some (Decimal.digits n, element) := by
  -- the separator begins with a blank, which is no digit
  refine Text.splitOnce_append fun h => ?_
  exact absurd (Decimal.isDigit_of_mem_digits h) (by decide)

/-- An integer type is read back if its width keeps to 32 bits. -/
theorem readScalar_int {bits : Nat} (h : bits < 2 ^ 32) :
    readScalar (Ty.int bits).chars = .ok (.int bits) := by
  have hbits : (Text.stripFirst 'i' (Ty.int bits).chars).bind (Decimal.read Decimal.max32) =
      some bits := Decimal.read_digits (Nat.le_of_lt_succ h)
  have hword : ∀ word : List Char, word.head? ≠ some 'i' → (Ty.int bits).chars ≠ word := by
    rintro _ hhead rfl
    exact hhead rfl
  rw [readScalar, if_neg (hword _ (by decide)), if_neg (hword _ (by decide)),
    if_neg (hword _ (by decide)), hbits]

/-- A plain name is read as it stands. -/
theorem readStructName_plain {name : String} (h : PlainName name) :
    readStructName name.toList = .ok (.struct name) := by
  have hne : name.toList.isEmpty = false := by simpa using h.ne_empty
  rw [readStructName, hne, Text.trimBy_of_tight h.tight, String.ofList_toList]
  rfl

/-- A notation that neither ends with `*` nor begins with `[` or `%` is read as a scalar. -/
theorem Readable.readChars_scalar (h : ty.Readable) (hlast : ty.chars.getLast? ≠ some '*')
    (hbracket : ty.chars.head? ≠ some '[') (hpercent : ty.chars.head? ≠ some '%') :
    readChars ty.chars = readScalar ty.chars := by
  rw [readChars_of_bare, h.trim_chars, Text.stripFirst_eq_none_iff.mpr hpercent]
  · rwa [h.trim_chars]
  · rwa [h.trim_chars]

/-- **The notation of a type is read back.** -/
theorem Readable.readChars_chars (h : ty.Readable) : readChars ty.chars = .ok ty := by
  induction h with
  | void => exact Readable.void.readChars_scalar (by decide) (by decide) (by decide)
  | @int bits h =>
    have hlast : (Ty.int bits).chars.getLast? ≠ some '*' := fun hc =>
      absurd (mem_chars_int (List.mem_of_getLast? hc)) (by decide)
    rw [(Readable.int h).readChars_scalar hlast (by simp [chars_int]) (by simp [chars_int])]
    exact readScalar_int h
  | float h =>
    rw [(Readable.float h).readChars_scalar]
    all_goals rcases h with rfl | rfl <;> decide
  | ptr h ih => rw [readChars_of_star (Readable.ptr h).trim_chars, ih]; rfl
  | struct h =>
    obtain ⟨last, hlast⟩ := h.exists_getLast?
    rw [readChars_of_bare, (Readable.struct h).trim_chars]
    · exact readStructName_plain h
    · rw [(Readable.struct h).trim_chars, chars_struct, List.getLast?_cons, hlast]
      simpa using (h.last_ne last hlast).1
    · rw [(Readable.struct h).trim_chars, chars_struct]
      simp
  | @array length element hlength h ih =>
    have hn : Decimal.read Decimal.max64 (Text.trim (Decimal.digits length)) = some length := by
      rw [trim_digits]
      exact Decimal.read_digits (Nat.le_of_lt_succ hlength)
    rw [readChars_of_brackets (Readable.array hlength h).trim_chars (splitOnce_length _ _) hn, ih]
    rfl

/-- **Reading undoes writing.**  The notation of a readable type, with any white space around
it, reads as the type. -/
theorem read_text (ty : Ty) (h : ty.Readable) (before after : String)
    (hbefore : ∀ c ∈ before.toList, Text.isBlank c = true)
    (hafter : ∀ c ∈ after.toList, Text.isBlank c = true) :
    read (before ++ ty.text ++ after) = .ok ty := by
  have htrim : Text.trim (before ++ ty.text ++ after).toList = Text.trim ty.chars := by
    rw [String.toList_append, String.toList_append, text, String.toList_ofList]
    exact Text.trimBy_append hbefore hafter
  rw [read, readChars_congr htrim, h.readChars_chars]

/-- A pointer to an array of pointers to a struct whose name holds all that the notation of
types is made of. -/
theorem read_text_nested :
    (Ty.ptr (.array 3 (.ptr (.struct " a] x [%\"*b")))).Readable ∧
      (∀ c ∈ "\t ".toList, Text.isBlank c = true) ∧ (∀ c ∈ "\u3000".toList, Text.isBlank c = true) ∧
        (Ty.ptr (.array 3 (.ptr (.struct " a] x [%\"*b")))).text = "[3 x % a] x [%\"*b*]*" ∧
          read ("\t " ++ (Ty.ptr (.array 3 (.ptr (.struct " a] x [%\"*b")))).text ++ "\u3000") =
            .ok (.ptr (.array 3 (.ptr (.struct " a] x [%\"*b")))) := by
  have hlast : " a] x [%\"*b".toList.getLast? = some 'b' := by decide
  have hname : PlainName " a] x [%\"*b" := by
    refine ⟨by decide, by decide, fun c hc => ?_⟩
    obtain rfl := Option.some.inj (hlast.symm.trans hc)
    decide
  have hty : (Ty.ptr (.array 3 (.ptr (.struct " a] x [%\"*b")))).Readable :=
    .ptr (.array (by decide) (.ptr (.struct hname)))
  have hbefore : ∀ c ∈ "\t ".toList, Text.isBlank c = true := List.all_eq_true.mp (by decide)
  have hafter : ∀ c ∈ "\u3000".toList, Text.isBlank c = true := List.all_eq_true.mp (by decide)
  exact ⟨hty, hbefore, hafter, by decide, read_text _ hty _ _ hbefore hafter⟩

end Ty
end StructuredFlow
