import Ripclone.Library.Lines
import Ripclone.Library.Result
import Ripclone.Results

/-!
# Names the server accepts

Git's rules for ref names, as the server checks them before it lists or writes a name.
-/

namespace Ripclone

open Ripclone.Library

def maxRefLen : Nat := 256

/-- A character of the Unicode category `Cc`. -/
def isControl (c : Char) : Bool :=
  decide (c.toNat < 0x20) || (decide (0x7f ≤ c.toNat) && decide (c.toNat ≤ 0x9f))

def refNameChar (c : Char) : Bool :=
  !(isControl c || c = ' ' || ['~', '^', ':', '?', '*', '[', '\\'].contains c)

def containsText (text part : List Char) : Bool := text.tails.any fun rest => part.isPrefixOf rest

def refNamePart (part : List Char) : Bool :=
  !(part.isEmpty || ['.'].isPrefixOf part || ".lock".toList.isSuffixOf part)

/-- A branch, a tag, a commit or another text a caller gives git as a revision. -/
def validateGitRev (rev : String) : Except String Unit :=
  let text := rev.toList
  if text.isEmpty then throw "git rev must not be empty"
  else if maxRefLen < rev.utf8ByteSize then throw ("git rev too long: " ++ toString rev.utf8ByteSize)
  else if ['-'].isPrefixOf text then throw "git rev must not start with '-'"
  else if containsText text ['.', '.'] || text.contains '\x00' || text.contains '\\' then
    throw ("git rev contains unsafe characters: " ++ rev)
  else return ()

/-- `what` names the kind of ref in the error. -/
def validateRefName (what name : String) : Except String Unit :=
  let text := name.toList
  if text.isEmpty then throw (what ++ " must not be empty")
  else if maxRefLen < name.utf8ByteSize then
    throw (what ++ " too long: " ++ toString name.utf8ByteSize)
  else if name = "HEAD" ∨ name = "@" ∨ ['-'].isPrefixOf text ∨ ['/'].isPrefixOf text then
    throw ("invalid " ++ what ++ ": " ++ name)
  else if ['/'].isSuffixOf text || ['.'].isSuffixOf text || containsText text ['/', '/'] ||
      containsText text ['.', '.'] || containsText text ['@', '\x7b'] || !text.all refNameChar ||
      !(text.splitOn '/').all refNamePart then
    throw ("invalid " ++ what ++ ": " ++ name)
  else return ()

def validateCheckoutName (name : String) : Except String Unit :=
  validateRefName "checkout branch" name

def validateTagName (name : String) : Except String Unit := validateRefName "tag" name

/-- An accepted name is not empty and has neither control characters nor spaces. -/
theorem validateRefName_ok {what name : String} (h : validateRefName what name = .ok ()) :
    name.toList ≠ [] ∧ ∀ c ∈ name.toList, refNameChar c = true := by
  simp only [validateRefName, ite_throw_eq_ok] at h
  obtain ⟨hne, _, _, hrules, _⟩ := h
  refine ⟨by simpa using hne, ?_⟩
  simp only [Bool.not_eq_true, Bool.or_eq_false_iff, Bool.not_eq_false', List.all_eq_true] at hrules
  exact hrules.1.2

theorem oneLine_of_refNameChar {text : List Char} (h : ∀ c ∈ text, refNameChar c = true) :
    OneLine text := by
  refine ⟨fun hmem => ?_, fun hmem => ?_⟩
  · exact absurd (h _ hmem) (by decide)
  · exact absurd (h _ hmem) (by decide)

/-- An object id is hex digits, and at least one. -/
theorem validateObjectId_ok {id : String} (h : validateObjectId id = true) :
    id.toList ≠ [] ∧ ∀ c ∈ id.toList, lowercaseHex c = true := by
  simp only [validateObjectId, Bool.and_eq_true, List.all_eq_true] at h
  refine ⟨?_, h.2⟩
  intro hnil
  have hlen : id.length = 0 := by
    rw [← String.length_toList, hnil]
    rfl
  simp [hlen] at h

theorem oneLine_of_lowercaseHex {text : List Char} (h : ∀ c ∈ text, lowercaseHex c = true) :
    OneLine text := by
  refine ⟨fun hmem => ?_, fun hmem => ?_⟩
  · exact absurd (h _ hmem) (by decide)
  · exact absurd (h _ hmem) (by decide)

end Ripclone
