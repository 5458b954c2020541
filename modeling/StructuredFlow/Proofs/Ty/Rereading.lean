/-
# Accepted texts and their notation

Which texts denote a type is said by the rules of `Reads`, one for each form of a text; the
reader accepts exactly these (`readChars_eq_ok_iff`).  A text of a type and the notation
of the type may differ in white space, in the writing of numbers, and in the quotes around
struct names, which the notation leaves out.  Only the quotes matter: of a type that was
read, the notation reads as the same type exactly if its struct name shows without quotes
what it is (`Reads.readable_iff`, `shown_of_reads_chars`).

| text | type | its notation | reads as |
| --- | --- | --- | --- |
| `%"a b"` | `struct "a b"` | `%a b` | the same |
| `%"a*"` | `struct "a*"` | `%a*` | a pointer to `struct "a"` |
| `%"a "` | `struct "a "` | `%a ` | `struct "a"` |
| `%""` | `struct ""` | `%` | nothing |

A text without quotes has no such name (`Reads.shown_of_notMem`).
-/

import StructuredFlow.Proofs.Ty.Reader

namespace StructuredFlow
namespace Ty

/-- The texts of a type. -/
inductive Reads : List Char → Ty → Prop
  /-- A text of the pointee and a star. -/
  | star {text base : List Char} {ty : Ty} (htrim : Text.trim text = base ++ ['*'])
    (h : Reads base ty) : Reads text (.ptr ty)
  /-- A length and a text of the element, in brackets. -/
  | brackets {text body length element : List Char} {n : Nat} {ty : Ty}
    (htrim : Text.trim text = '[' :: body ++ [']'])
    (hcut : Text.splitOnce " x ".toList body = some (length, element))
    (hlength : Decimal.read Decimal.max64 (Text.trim length) = some n) (h : Reads element ty) :
    Reads text (.array n ty)
  /-- A struct name that need not be free of quotes. -/
  | percent {text name : List Char} (htrim : Text.trim text = '%' :: name) (hne : name ≠ [])
    (hstar : name.getLast? ≠ some '*') :
    Reads text (.struct (String.ofList (Text.trimBy (· == '"') name)))
  /-- The name of a type without parts. -/
  | scalar {text : List Char} {ty : Ty} (h : readScalar (Text.trim text) = .ok ty) : Reads text ty

/-- The name of the struct that a type is made of, if it is of one. -/
def structName? : Ty → Option String
  | .ptr pointee => pointee.structName?
  | .array _ element => element.structName?
  | .struct name => some name
  | _ => none

variable {ty : Ty} {text : List Char}

/-! ### The reader follows the rules -/

/-- A result that was mapped comes from one before. -/
theorem exists_of_map_eq_ok {α β ε : Type} {x : Except ε α} {f : α → β} {b : β}
    (h : x.map f = .ok b) : ∃ a, x = .ok a ∧ b = f a := by
  cases x with
  | error e => exact absurd h (by simp [Except.map])
  | ok a => exact ⟨a, rfl, (Except.ok.inj h).symm⟩

/-- The name of a type without parts is one of three words or `i` and a width. -/
theorem readScalar_eq_ok (h : readScalar text = .ok ty) :
    (text = "void".toList ∧ ty = .void) ∨ (text = "float".toList ∧ ty = .float 32) ∨
      (text = "double".toList ∧ ty = .float 64) ∨
        ∃ width bits, text = 'i' :: width ∧ Decimal.read Decimal.max32 width = some bits ∧
          ty = .int bits := by
  rw [readScalar] at h
  split at h
  next hvoid => exact Or.inl ⟨hvoid, (Except.ok.inj h).symm⟩
  next =>
    split at h
    next hfloat => exact Or.inr (Or.inl ⟨hfloat, (Except.ok.inj h).symm⟩)
    next =>
      split at h
      next hdouble => exact Or.inr (Or.inr (Or.inl ⟨hdouble, (Except.ok.inj h).symm⟩))
      next =>
        split at h
        next bits hbits =>
          obtain ⟨width, hwidth, hread⟩ := Option.bind_eq_some_iff.mp hbits
          exact Or.inr (Or.inr (Or.inr
            ⟨width, bits, Text.stripFirst_eq_some.mp hwidth, hread, (Except.ok.inj h).symm⟩))
        next => exact absurd h (by simp)

/-- The name of a type without parts shows that no other rule applies. -/
theorem bare_of_readScalar (h : readScalar text = .ok ty) :
    text.getLast? ≠ some '*' ∧ text.head? ≠ some '[' ∧ text.head? ≠ some '%' := by
  rcases readScalar_eq_ok h with ⟨rfl, -⟩ | ⟨rfl, -⟩ | ⟨rfl, -⟩ | ⟨width, bits, rfl, hread, -⟩
  · decide
  · decide
  · decide
  · refine ⟨fun hlast => ?_, by simp, by simp⟩
    have hne : width ≠ [] := by
      rintro rfl
      exact absurd hread (by simp [Decimal.read, Decimal.dropPlus])
    rw [List.getLast?_cons, List.getLast?_eq_some_getLast hne] at hlast
    have hdigit := Decimal.isDigit_getLast_of_read hread (List.getLast?_eq_some_getLast hne)
    rw [Option.getD_some, Option.some.injEq] at hlast
    rw [hlast] at hdigit
    exact absurd hdigit (by decide)

/-- What is read as a type without parts is readable and has no struct. -/
theorem readable_of_readScalar (h : readScalar text = .ok ty) :
    ty.Readable ∧ ty.structName? = none := by
  rcases readScalar_eq_ok h with ⟨-, rfl⟩ | ⟨-, rfl⟩ | ⟨-, rfl⟩ | ⟨width, bits, -, hread, rfl⟩
  · exact ⟨.void, rfl⟩
  · exact ⟨.float (Or.inl rfl), rfl⟩
  · exact ⟨.float (Or.inr rfl), rfl⟩
  · exact ⟨.int (Nat.lt_succ_of_le (Decimal.le_of_read hread)), rfl⟩

/-- **The reader accepts texts of types only.** -/
theorem reads_of_readChars {text : List Char} {ty : Ty} (h : readChars text = .ok ty) :
    Reads text ty := by
  rw [readChars] at h
  split at h
  next base hbase =>
    obtain ⟨pointee, hpointee, rfl⟩ := exists_of_map_eq_ok h
    have hlt := length_lt_of_stripLast hbase
    exact .star (Text.stripLast_eq_some.mp hbase) (reads_of_readChars hpointee)
  next hstar =>
    rw [Text.stripLast_eq_none_iff] at hstar
    split at h
    next body hbody =>
      split at h
      next => exact absurd h (by simp)
      next length element hcut =>
        split at h
        next => exact absurd h (by simp)
        next n hlength =>
          obtain ⟨elementTy, helement, rfl⟩ := exists_of_map_eq_ok h
          have hlt := length_lt_of_stripBrackets hbody hcut
          exact .brackets (stripBrackets_eq_some.mp hbody) hcut hlength
            (reads_of_readChars helement)
    next =>
      split at h
      next name hname =>
        rw [Text.stripFirst_eq_some] at hname
        rw [readStructName] at h
        split at h
        next => exact absurd h (by simp)
        next hne =>
          obtain rfl := Except.ok.inj h
          rw [List.isEmpty_iff] at hne
          refine .percent hname hne fun hlast => hstar ?_
          rw [hname, List.getLast?_cons, hlast]
          rfl
      next => exact .scalar h
termination_by text.length

/-- **The reader accepts every text of a type.** -/
theorem readChars_of_reads (h : Reads text ty) : readChars text = .ok ty := by
  induction h with
  | star htrim _ ih => rw [readChars_of_star htrim, ih]; rfl
  | brackets htrim hcut hlength _ ih => rw [readChars_of_brackets htrim hcut hlength, ih]; rfl
  | @percent text name htrim hne hstar =>
    have hlast : (Text.trim text).getLast? ≠ some '*' := by
      rw [List.getLast?_eq_some_getLast hne] at hstar
      rw [htrim, List.getLast?_cons, List.getLast?_eq_some_getLast hne]
      simpa using hstar
    have hbracket : (Text.trim text).head? ≠ some '[' := by simp [htrim]
    rw [readChars_of_bare hlast hbracket, Text.stripFirst_eq_some.mpr htrim]
    simp [readStructName, hne]
  | scalar h =>
    obtain ⟨hstar, hbracket, hpercent⟩ := bare_of_readScalar h
    rw [readChars_of_bare hstar hbracket, Text.stripFirst_eq_none_iff.mpr hpercent]
    exact h

/-- **The reader accepts what the notation reads**, and as the same type. -/
theorem readChars_eq_ok_iff : readChars text = .ok ty ↔ Reads text ty :=
  ⟨reads_of_readChars, readChars_of_reads⟩

/-! ### Names that show what they are -/

/-- A struct name that without quotes around it is not taken for something else. -/
structure Shown (name : String) : Prop where
  /-- There is a name. -/
  ne_empty : name ≠ ""
  /-- It ends neither in a star nor in white space. -/
  last_ne : ∀ c, name.toList.getLast? = some c → c ≠ '*' ∧ Text.isBlank c = false

/-- Quotes are taken off a name in reading, so that those left in it are inside. -/
theorem plainName_trimBy_iff (name : List Char) :
    PlainName (String.ofList (Text.trimBy (· == '"') name)) ↔
      Shown (String.ofList (Text.trimBy (· == '"') name)) := by
  have htight := Text.tight_trimBy (· == '"') name
  refine ⟨fun h => ⟨h.ne_empty, fun c hc => ?_⟩,
    fun h => ⟨h.ne_empty, fun hc => ?_, fun c hc => ?_⟩⟩
  · exact ⟨(h.last_ne c hc).1, (h.last_ne c hc).2.2⟩
  · rw [String.toList_ofList] at hc
    exact absurd (htight.head _ hc) (by simp)
  · have hquote := htight.last c (by rwa [String.toList_ofList] at hc)
    exact ⟨(h.last_ne c hc).1, by simpa using hquote, (h.last_ne c hc).2⟩

/-- **The type of a text is readable exactly if its struct name is shown.** -/
theorem Reads.readable_iff (h : Reads text ty) :
    ty.Readable ↔ ∀ name, ty.structName? = some name → Shown name := by
  induction h with
  | star _ _ ih =>
    refine Iff.trans ⟨fun h => ?_, .ptr⟩ ih
    cases h
    assumption
  | brackets _ _ hlength _ ih =>
    refine Iff.trans ⟨fun h => ?_, .array (Nat.lt_succ_of_le (Decimal.le_of_read hlength))⟩ ih
    cases h
    assumption
  | @percent text name htrim _ _ =>
    refine Iff.trans ⟨fun h => ?_, .struct⟩ ((plainName_trimBy_iff name).trans ?_)
    · cases h
      assumption
    · refine ⟨fun h other hother => ?_, fun h => h _ rfl⟩
      rwa [← Option.some.inj hother]
  | scalar h =>
    obtain ⟨hreadable, hnone⟩ := readable_of_readScalar h
    refine iff_of_true hreadable fun name hname => ?_
    exact absurd (hnone.symm.trans hname) (by simp)

/-! ### Texts without quotes -/

/-- **In a text without quotes a struct name is shown.** -/
theorem Reads.shown_of_notMem (h : Reads text ty) (hquote : '"' ∉ text) :
    ∀ name, ty.structName? = some name → Shown name := by
  induction h with
  | star htrim _ ih =>
    refine ih fun hc => hquote (Text.mem_of_mem_trimBy (p := Text.isBlank) ?_)
    rw [Text.trim] at htrim
    simp [htrim, hc]
  | brackets htrim hcut _ _ ih =>
    refine ih fun hc => hquote (Text.mem_of_mem_trimBy (p := Text.isBlank) ?_)
    rw [Text.trim] at htrim
    simp [htrim, Text.splitOnce_eq_some hcut, hc]
  | @percent text name htrim hne hstar =>
    have hall : ∀ c ∈ name, (c == '"') = false := by
      intro c hc
      rw [beq_eq_false_iff_ne]
      rintro rfl
      refine hquote (Text.mem_of_mem_trimBy (p := Text.isBlank) ?_)
      rw [← Text.trim, htrim]
      exact List.mem_cons_of_mem _ hc
    have hname : Text.trimBy (· == '"') name = name := Text.trimBy_of_tight
      ⟨fun c hc => hall c (List.mem_of_head? hc), fun c hc => hall c (List.mem_of_getLast? hc)⟩
    rintro _ ⟨rfl⟩
    rw [hname]
    refine ⟨by simpa using hne, fun c hc => ?_⟩
    rw [String.toList_ofList] at hc
    refine ⟨fun hstar' => hstar (hstar' ▸ hc), (Text.tight_trimBy Text.isBlank text).last c ?_⟩
    rw [← Text.trim, htrim, List.getLast?_cons, hc]
    rfl
  | scalar h =>
    intro name hname
    exact absurd ((readable_of_readScalar h).2.symm.trans hname) (by simp)

/-! ### Reading the notation again -/

/-- A pointer is read from a star behind its target. -/
theorem Reads.of_ptr {pointee : Ty} (h : Reads text (.ptr pointee)) :
    ∃ base, Text.trim text = base ++ ['*'] ∧ Reads base pointee := by
  cases h with
  | star htrim h => exact ⟨_, htrim, h⟩
  | scalar h => simpa using readScalar_eq_ok h

/-- An array is read from between brackets. -/
theorem Reads.of_array {n : Nat} {element : Ty} (h : Reads text (.array n element)) :
    ∃ body before after, Text.trim text = '[' :: body ++ [']'] ∧
      Text.splitOnce " x ".toList body = some (before, after) ∧ Reads after element := by
  cases h with
  | brackets htrim hcut _ h => exact ⟨_, _, _, htrim, hcut, h⟩
  | scalar h => simpa using readScalar_eq_ok h

/-- The name of a struct is what its quotes enclose, and something is there for it. -/
theorem Reads.of_struct {name : String} (h : Reads text (.struct name)) :
    ∃ quoted, Text.trim text = '%' :: quoted ∧ quoted ≠ [] ∧ quoted.getLast? ≠ some '*' ∧
      name.toList = Text.trimBy (· == '"') quoted := by
  cases h with
  | percent htrim hne hstar => exact ⟨_, htrim, hne, hstar, String.toList_ofList⟩
  | scalar h => simpa using readScalar_eq_ok h

/-- A floating-point type is written with `f` or `d` first. -/
theorem head?_chars_float (bits : Nat) :
    (Ty.float bits).chars.head? = some 'f' ∨ (Ty.float bits).chars.head? = some 'd' := by
  unfold chars
  split <;> simp_all

/-- The text of a type does not start blank. -/
theorem isBlank_head_chars (ty : Ty) {c : Char} (h : ty.chars.head? = some c) :
    Text.isBlank c = false := by
  induction ty with
  | ptr pointee ih =>
    rw [chars_ptr, List.head?_append, Option.or_eq_some_iff] at h
    rcases h with h | ⟨-, h⟩
    · exact ih h
    · cases h
      decide
  | float bits =>
    rcases head?_chars_float bits with hf | hd
    · cases hf.symm.trans h
      decide
    · cases hd.symm.trans h
      decide
  | _ =>
    cases h
    decide

/-- **If the notation of a type reads as that type, its struct name is shown.** -/
theorem shown_of_reads_chars (h : Reads ty.chars ty) :
    ∀ name, ty.structName? = some name → Shown name := by
  induction ty with
  | ptr pointee ih =>
    have htight : Text.Tight Text.isBlank (Ty.ptr pointee).chars := by
      refine ⟨fun c hc => isBlank_head_chars _ hc, fun c hc => ?_⟩
      rw [chars_ptr, List.getLast?_concat] at hc
      cases hc
      decide
    obtain ⟨base, htrim, hbase⟩ := h.of_ptr
    rw [Text.trim, Text.trimBy_of_tight htight, chars_ptr, List.append_cancel_right_eq] at htrim
    exact ih (htrim ▸ hbase)
  | array n element ih =>
    have htight : Text.Tight Text.isBlank (Ty.array n element).chars := by
      refine ⟨fun c hc => isBlank_head_chars _ hc, fun c hc => ?_⟩
      rw [chars_array, List.getLast?_concat] at hc
      cases hc
      decide
    obtain ⟨body, before, after, htrim, hcut, hafter⟩ := h.of_array
    rw [Text.trim, Text.trimBy_of_tight htight, chars_array, List.append_cancel_right_eq,
      List.cons.injEq] at htrim
    rw [← htrim.2, splitOnce_length] at hcut
    obtain ⟨-, rfl⟩ := Prod.mk.inj (Option.some.inj hcut)
    exact ih hafter
  | struct name =>
    obtain ⟨quoted, htrim, hne, hstar, hname⟩ := h.of_struct
    rintro _ ⟨rfl⟩
    have hprefix : '%' :: quoted <+: '%' :: name.toList :=
      htrim ▸ Text.trimBy_prefix fun c hc => isBlank_head_chars (.struct name) hc
    -- nothing was trimmed, as the name with its quotes cannot be shorter than without
    have hlength : name.toList.length ≤ quoted.length := hname ▸ Text.length_trimBy_le ..
    have hsame : quoted = name.toList :=
      ((List.prefix_cons_inj '%').mp hprefix).eq_of_length_le hlength
    have htight := Text.tight_trimBy Text.isBlank (Ty.struct name).chars
    rw [← Text.trim, htrim, hsame] at htight
    rw [hsame] at hne hstar
    refine ⟨by simpa using hne, fun c hc => ⟨?_, htight.last c ?_⟩⟩
    · rintro rfl
      exact hstar hc
    · rw [List.getLast?_cons, hc]
      rfl
  | _ =>
    intro name hname
    exact absurd hname (by simp [structName?])

/-- **The notation of a type that was read** reads as the same type exactly if its struct name,
if there is one, is shown: not empty, and without a star or white space at its end.  This is
so whenever the text that was read is free of quotes. -/
theorem read_text_iff_of_read {text : String} {ty : Ty} (h : read text = .ok ty) :
    (read ty.text = .ok ty ↔ ∀ name, ty.structName? = some name → Shown name) ∧
      ('"' ∉ text.toList → read ty.text = .ok ty) := by
  have hreads : Reads text.toList ty := reads_of_readChars h
  have hchars : read ty.text = readChars ty.chars := by
    rw [read, Ty.text, String.toList_ofList]
  have hiff : read ty.text = .ok ty ↔ ∀ name, ty.structName? = some name → Shown name := by
    rw [hchars]
    constructor
    · exact fun hagain => shown_of_reads_chars (reads_of_readChars hagain)
    · exact fun hshown => (hreads.readable_iff.mpr hshown).readChars_chars
  exact ⟨hiff, fun hquote => hiff.mpr (hreads.shown_of_notMem hquote)⟩

/-- Quotes around a name with a blank in it, signs and zeros before a length, and white space
all around. -/
theorem read_text_quoted :
    read "\t[ +007 x %\"a b\" ] *\n" = .ok (.ptr (.array 7 (.struct "a b"))) ∧
      (Ty.ptr (.array 7 (.struct "a b"))).text = "[7 x %a b]*" ∧
        read (Ty.ptr (.array 7 (.struct "a b"))).text = .ok (.ptr (.array 7 (.struct "a b"))) := by
  have hname : Reads "%\"a b\" ".toList (.struct "a b") :=
    @Reads.percent _ "\"a b\"".toList (by decide) (by decide) (by decide)
  have harray : Reads "[ +007 x %\"a b\" ] ".toList (.array 7 (.struct "a b")) :=
    @Reads.brackets _ " +007 x %\"a b\" ".toList " +007".toList _ _ _ (by decide) (by decide)
      (by decide) hname
  have hread : read "\t[ +007 x %\"a b\" ] *\n" = .ok (.ptr (.array 7 (.struct "a b"))) :=
    readChars_of_reads (.star (by decide) harray)
  refine ⟨hread, by decide, (read_text_iff_of_read hread).1.mpr ?_⟩
  rintro _ ⟨rfl⟩
  have hlast : "a b".toList.getLast? = some 'b' := by decide
  refine ⟨by decide, fun c hc => ?_⟩
  obtain rfl := Option.some.inj (hlast.symm.trans hc)
  decide

/-- **Quotes can hide an empty name, a star and a blank.**  The first notation is refused, the
others read as a pointer and as another struct. -/
theorem hidden_by_quotes :
    (read "%\"\"" = .ok (.struct "") ∧ read (Ty.struct "").text = .error .emptyStructName) ∧
      (read "%\"a*\"" = .ok (.struct "a*") ∧
        read (Ty.struct "a*").text = .ok (.ptr (.struct "a"))) ∧
      (read "%\"a \"" = .ok (.struct "a ") ∧ read (Ty.struct "a ").text = .ok (.struct "a")) := by
  have hnothing : read (Ty.struct "").text = .error .emptyStructName := by
    have htext : (Ty.struct "").text.toList = ['%'] := by decide
    rw [read, htext, readChars_of_bare (by decide) (by decide)]
    decide
  have ha : Reads "%a".toList (.struct "a") :=
    @Reads.percent _ "a".toList (by decide) (by decide) (by decide)
  refine ⟨⟨readChars_of_reads ?_, hnothing⟩,
    ⟨readChars_of_reads ?_, readChars_of_reads (.star (by decide) ha)⟩,
    readChars_of_reads ?_, readChars_of_reads ?_⟩
  · exact @Reads.percent _ "\"\"".toList (by decide) (by decide) (by decide)
  · exact @Reads.percent _ "\"a*\"".toList (by decide) (by decide) (by decide)
  · exact @Reads.percent _ "\"a \"".toList (by decide) (by decide) (by decide)
  · exact @Reads.percent _ "a".toList (by decide) (by decide) (by decide)

end Ty
end StructuredFlow
