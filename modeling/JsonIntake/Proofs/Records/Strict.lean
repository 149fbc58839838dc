import JsonIntake.Proofs.Json.Reading
import JsonIntake.Proofs.Records.Lines
import JsonIntake.Proofs.Records.Malformed

/-!
# Records written as strict texts

A line with the strict text of an object is the record of that object, and the
blanks around it are trimmed.  A blank line is no record.
-/

namespace JsonIntake

open Json (Value)
open Grammar (Blank StrictLiteral Text)

section Trimming

variable {front body back : List UInt8} {first last : UInt8}

theorem trimAscii_eq (hfirst : isAsciiSpace first = false)
    (hlast : isAsciiSpace last = false)
    (hfront : ∀ byte ∈ front, isAsciiSpace byte = true)
    (hback : ∀ byte ∈ back, isAsciiSpace byte = true) :
    trimAscii (front ++ first :: (body ++ [last]) ++ back) =
      first :: (body ++ [last]) := by
  have hleft : (front ++ first :: (body ++ [last]) ++ back).dropWhile
      isAsciiSpace = first :: (body ++ [last]) ++ back := by
    rw [List.append_assoc, List.dropWhile_append_of_pos hfront]
    exact List.dropWhile_cons_of_neg (by simp [hfirst])
  have hright : (back.reverse ++ last :: (body.reverse ++ [first])).dropWhile
      isAsciiSpace = last :: (body.reverse ++ [first]) := by
    rw [List.dropWhile_append_of_pos (by simpa using hback)]
    exact List.dropWhile_cons_of_neg (by simp [hlast])
  have hreverse : (first :: (body ++ [last]) ++ back).reverse =
      back.reverse ++ last :: (body.reverse ++ [first]) := by
    simp
  rw [trimAscii, hleft, hreverse, hright]
  simp

theorem trimAscii_blank (hblank : ∀ byte ∈ body, isAsciiSpace byte = true) :
    trimAscii body = [] := by
  have hnone : body.dropWhile isAsciiSpace = [] := by
    rw [← List.append_nil body, List.dropWhile_append_of_pos hblank,
      List.dropWhile_nil]
  rw [trimAscii, hnone]
  rfl

end Trimming

section Lines

variable {delimiter : UInt8} {text : Text StrictLiteral}
  {members : List (String × Value)} {line : List UInt8}

theorem recordLines_blank (hblank : ∀ byte ∈ line, isAsciiSpace byte = true)
    (hline : delimiter ∉ line) : recordLines delimiter line = [] := by
  rw [recordLines, splitAtDelimiter_eq_singleton delimiter hline,
    List.map_singleton, trimAscii_blank hblank]
  rfl

theorem exists_braces {tree : Grammar.Tree StrictLiteral}
    (htree : tree.Denotes (.object members)) :
    ∃ body, tree.bytes StrictLiteral.bytes = 123 :: (body ++ [125]) := by
  cases htree with
  | scalar hscalar => exact absurd hscalar nofun
  | emptyObject inside => exact ⟨inside.bytes, rfl⟩
  | @object written _ _ _ _ _ => exact ⟨_, rfl⟩

theorem isAsciiSpace_of_blank (blank : Blank) :
    ∀ byte ∈ blank.bytes, isAsciiSpace byte = true := by
  intro byte hbyte
  have hblank := blank.blank byte hbyte
  simp only [Grammar.isBlank, Bool.or_eq_true, decide_eq_true_eq] at hblank
  rcases hblank with ((rfl | rfl) | rfl) | rfl <;> rfl

/-- A line with the text of an object has the object as its only record. -/
theorem recordLines_text (hvalue : text.value.Denotes (.object members))
    (hline : delimiter ∉ text.bytes StrictLiteral.bytes) :
    recordLines delimiter (text.bytes StrictLiteral.bytes) =
      [text.value.bytes StrictLiteral.bytes] := by
  obtain ⟨body, hbody⟩ := exists_braces hvalue
  have htrim : trimAscii (text.bytes StrictLiteral.bytes) =
      123 :: (body ++ [125]) := by
    rw [Text.bytes, hbody]
    exact trimAscii_eq rfl rfl (isAsciiSpace_of_blank text.before)
      (isAsciiSpace_of_blank text.behind)
  rw [recordLines, splitAtDelimiter_eq_singleton delimiter hline,
    List.map_singleton, htrim, hbody]
  rfl

theorem parse_tree {tree : Grammar.Tree StrictLiteral} {value : Value}
    (htree : tree.Denotes value) (hnesting : tree.nesting ≤ Json.nestingLimit) :
    Json.parse (tree.bytes StrictLiteral.bytes) = .ok value := by
  have hparse : Json.parse (Text.bytes StrictLiteral.bytes
      ⟨Json.noBlank, tree, Json.noBlank⟩) = .ok value :=
    Json.parse_text htree hnesting
  rwa [Text.bytes, Json.noBlank, List.nil_append, List.append_nil] at hparse

end Lines

end JsonIntake
