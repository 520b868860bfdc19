import Ripclone.Library.Machine
import Ripclone.LsRefs.Agreement

/-!
# What is read as a listing

`lsRemoteLines` on any bytes: what a server lists comes out as the lines `git ls-remote --symref` prints,
as long as its names are UTF-8, and whatever is read is packets of lines up to a mark of the end. Cut off
anywhere, or with more after it, it is not read. `lsRemoteLinesChecked` is the same parser with its slices,
which can panic.
-/

namespace Ripclone.LsRefs

open Ripclone.Library PktLine

/-! ## The slices -/

/-- What stands first in an answer. -/
inductive Front where
  | malformed
  /-- The mark of the end, and what is after it. -/
  | done (after : List UInt8)
  | line (payload next : List UInt8)

def readFront (rest : List UInt8) : Except Panic Front :=
  match getSlice rest 0 4 with
  | none => .ok .malformed
  | some digits =>
    match parseHex digits with
    | none => .ok .malformed
    | some len =>
      if len = 0 then do
        let after ← sliceFrom rest 4
        return .done after
      else
        match getSlice rest 4 len with
        | none => .ok .malformed
        | some payload => do
          let next ← sliceFrom rest len
          return .line payload next

theorem readFront_short {rest : List UInt8} (h : rest.length < 4) : readFront rest = .ok .malformed := by
  have hdigits : getSlice rest 0 4 = none := if_neg (by omega)
  rw [readFront, hdigits]

theorem readFront_eq {rest : List UInt8} (h : 4 ≤ rest.length) :
    readFront rest = .ok (match parseHex (rest.take 4) with
      | none => .malformed
      | some len =>
        if len = 0 then .done (rest.drop 4)
        else if len < 4 ∨ rest.length < len then .malformed
        else .line ((rest.take len).drop 4) (rest.drop len)) := by
  have hdigits : getSlice rest 0 4 = some (rest.take 4) := if_pos ⟨by omega, h⟩
  rw [readFront, hdigits]
  dsimp only
  cases hhex : parseHex (rest.take 4) with
  | none => rfl
  | some len =>
      dsimp only
      by_cases hzero : len = 0
      · rw [if_pos hzero, if_pos hzero, sliceFrom_of_le h]
        rfl
      rw [if_neg hzero, if_neg hzero]
      by_cases hbounds : len < 4 ∨ rest.length < len
      · have hline : getSlice rest 4 len = none := if_neg (by omega)
        rw [hline, if_pos hbounds]
      · have hline : getSlice rest 4 len = some ((rest.take len).drop 4) := if_pos (by omega)
        rw [hline, if_neg hbounds]
        dsimp only
        rw [sliceFrom_of_le (by omega)]
        rfl

theorem length_next {rest payload next : List UInt8} (h : readFront rest = .ok (.line payload next)) :
    next.length < rest.length := by
  by_cases hshort : rest.length < 4
  · rw [readFront_short hshort] at h
    cases h
  rw [readFront_eq (by omega)] at h
  cases hhex : parseHex (rest.take 4) with
  | none => simp [hhex] at h
  | some len =>
      simp only [hhex] at h
      split at h
      · cases h
      · split at h
        · cases h
        · cases h
          rw [List.length_drop]
          omega

def lsRemoteLinesChecked (rest : List UInt8) : Except Panic (Option (List UInt8)) :=
  match _h : readFront rest with
  | .error panic => .error panic
  | .ok .malformed => .ok none
  | .ok (.done after) => .ok (if after.isEmpty then some [] else none)
  | .ok (.line payload next) =>
    match refLines payload with
    | none => .ok none
    | some out => do
      let more ← lsRemoteLinesChecked next
      return more.map fun more => out ++ more
termination_by rest.length
decreasing_by exact length_next (by assumption)

theorem lsRemoteLinesChecked_malformed {rest : List UInt8} (h : readFront rest = .ok .malformed) :
    lsRemoteLinesChecked rest = .ok none := by
  rw [lsRemoteLinesChecked]
  split <;> simp_all

theorem lsRemoteLinesChecked_done {rest after : List UInt8} (h : readFront rest = .ok (.done after)) :
    lsRemoteLinesChecked rest = .ok (if after.isEmpty then some [] else none) := by
  rw [lsRemoteLinesChecked]
  split <;> simp_all

theorem lsRemoteLinesChecked_line {rest payload next : List UInt8}
    (h : readFront rest = .ok (.line payload next)) {more : Option (List UInt8)}
    (hmore : lsRemoteLinesChecked next = .ok more) :
    lsRemoteLinesChecked rest =
      .ok ((refLines payload).bind fun out => more.map fun more => out ++ more) := by
  rw [lsRemoteLinesChecked]
  split
  · simp_all
  · simp_all
  · simp_all
  · next payload' next' heq =>
      rw [h] at heq
      cases heq
      cases refLines payload with
      | none => rfl
      | some out =>
          dsimp only
          rw [hmore]
          rfl

/-- The parser stays within the answer. -/
theorem lsRemoteLinesChecked_eq (answer : List UInt8) :
    lsRemoteLinesChecked answer = .ok (lsRemoteLines answer) := by
  fun_induction lsRemoteLines answer with
  | case1 answer hshort => exact lsRemoteLinesChecked_malformed (readFront_short hshort)
  | case2 answer hlong hhex =>
      apply lsRemoteLinesChecked_malformed
      rw [readFront_eq (by omega), hhex]
  | case3 answer hlong hhex hend =>
      rw [lsRemoteLinesChecked_done (by rw [readFront_eq (by omega), hhex]; rfl), if_pos hend]
  | case4 answer hlong hhex hend =>
      rw [lsRemoteLinesChecked_done (by rw [readFront_eq (by omega), hhex]; rfl), if_neg hend]
  | case5 answer hlong len hzero hhex hbad =>
      apply lsRemoteLinesChecked_malformed
      rw [readFront_eq (by omega), hhex]
      dsimp only
      rw [if_neg (by omega), if_pos hbad]
  | case6 answer hlong len hzero hhex hbounds ih =>
      have hfront : readFront answer =
          .ok (.line ((answer.take len).drop 4) (answer.drop len)) := by
        rw [readFront_eq (by omega), hhex]
        dsimp only
        rw [if_neg (by omega), if_neg hbounds]
      rw [lsRemoteLinesChecked_line hfront ih]

/-! ## What a server lists -/

/-- How a server writes a ref's line. -/
structure LineStyle where
  peeledFirst : Bool
  newline : Bool
  deriving DecidableEq, Repr

def attributesOf (peeledFirst : Bool) (ref : UpstreamRef) : List (List UInt8) :=
  let symref := (ref.symref.map fun target => Utf8.encode "symref-target:" ++ target).toList
  let peeled := (ref.peeled.map fun id => Utf8.encode "peeled:" ++ Utf8.encode id).toList
  if peeledFirst then peeled ++ symref else symref ++ peeled

def fieldsOf (style : LineStyle) (ref : UpstreamRef) : List (List UInt8) :=
  [Utf8.encode ref.id, ref.name] ++ attributesOf style.peeledFirst ref

def serverLine (style : LineStyle) (ref : UpstreamRef) : List UInt8 :=
  (Utf8.encode " ").intercalate (fieldsOf style ref) ++ Utf8.encode (if style.newline then "\n" else "")

/-- A listing on the wire, each ref in its own style. -/
def serverAnswer (lines : List (LineStyle × UpstreamRef)) : List UInt8 :=
  lines.flatMap (fun line => packet (serverLine line.1 line.2)) ++ fourHex 0

/-- The lines git prints for a listing. -/
def printedLines (lines : List (LineStyle × UpstreamRef)) : List UInt8 :=
  listing (lines.flatMap fun line => line.2.entries)

/-- The ref is named, and its line fits in a packet. -/
def Sendable (line : LineStyle × UpstreamRef) : Prop :=
  line.2.name ≠ [] ∧ (serverLine line.1 line.2).length + 4 < 65536

/-- The names in a ref's line are UTF-8. -/
def InUtf8 (ref : UpstreamRef) : Prop :=
  (∃ name : String, ref.name = Utf8.encode name) ∧
    ∀ target ∈ ref.symref, ∃ text : String, target = Utf8.encode text

/-! ## Lines in UTF-8 -/

section Line

variable {style : LineStyle} {ref : UpstreamRef}

theorem mem_fieldsOf {field : List UInt8} : field ∈ fieldsOf style ref ↔ field ∈ answerFields ref := by
  unfold fieldsOf attributesOf answerFields
  cases style.peeledFirst <;> simp [or_comm, or_left_comm]

/-- A line that is UTF-8 has its fields in UTF-8. -/
theorem encode_lossy_of_strict {text : String} (h : Utf8.strict (serverLine style ref) = some text)
    {field : List UInt8} (hfield : field ∈ fieldsOf style ref) :
    Utf8.encode (Utf8.lossy field) = field := by
  have hline : Utf8.encode (Utf8.lossy (serverLine style ref)) = serverLine style ref := by
    rw [← Utf8.strict_eq_some.mp h, Utf8.lossy_encode]
  have hfields : Utf8.encode (Utf8.lossy ((Utf8.encode " ").intercalate (fieldsOf style ref))) =
      (Utf8.encode " ").intercalate (fieldsOf style ref) := by
    cases hnewline : style.newline with
    | false =>
        have hempty : Utf8.encode "" = [] := rfl
        simpa [serverLine, hnewline, hempty] using hline
    | true =>
        have hbyte : Utf8.encode "\n" = [UInt8.ofNat 10] := rfl
        simp only [serverLine, hnewline, if_true, hbyte] at hline
        rw [Utf8.encode_lossy_ascii (by decide)] at hline
        exact (List.append_inj' hline rfl).1
  exact encode_lossy_field (fun field hmem => plain_answerFields (mem_fieldsOf.mp hmem))
    (by simp [fieldsOf]) hfields field hfield

theorem inUtf8_of_strict {text : String} (h : Utf8.strict (serverLine style ref) = some text) :
    InUtf8 ref := by
  constructor
  · have hfield : ref.name ∈ fieldsOf style ref := mem_fieldsOf.mpr (by simp [answerFields])
    have hname := encode_lossy_of_strict h hfield
    exact ⟨Utf8.lossy ref.name, hname.symm⟩
  · intro target htarget
    have hfield : Utf8.encode "symref-target:" ++ target ∈ fieldsOf style ref :=
      mem_fieldsOf.mpr (by simp [answerFields, Option.mem_def.mp htarget])
    have htext := encode_lossy_of_strict h hfield
    rw [Utf8.lossy_encode_append, Utf8.encode_append] at htext
    exact ⟨Utf8.lossy target, (List.append_cancel_left htext).symm⟩

/-- The attributes of a line, as texts. -/
def attributeTexts (peeledFirst : Bool) (symref peeled : Option String) : List (List Char) :=
  let symref := (symref.map fun target => "symref-target:".toList ++ target.toList).toList
  let peeled := (peeled.map fun id => "peeled:".toList ++ id.toList).toList
  if peeledFirst then peeled ++ symref else symref ++ peeled

theorem attributesOf_eq {peeledFirst : Bool} {symref : Option String}
    (hsymref : ref.symref = symref.map Utf8.encode) : attributesOf peeledFirst ref =
      (attributeTexts peeledFirst symref ref.peeled).map fun text => Utf8.encode (String.ofList text) := by
  have htext : ∀ head tail : String, Utf8.encode (String.ofList (head.toList ++ tail.toList)) =
      Utf8.encode head ++ Utf8.encode tail := by
    intro head tail
    rw [Utf8.encode_ofList_append, String.ofList_toList, String.ofList_toList]
  unfold attributesOf attributeTexts
  rw [hsymref]
  cases peeledFirst <;> cases symref <;> cases ref.peeled <;>
    simp only [Option.map_none, Option.map_some, Option.toList_none, Option.toList_some, if_true,
      Bool.false_eq_true, if_false, List.append_nil, List.nil_append, List.map_nil, List.map_cons,
      List.map_append, htext]

/-- The attributes say the same in either order. -/
theorem foldlM_attributeTexts (name : List Char) (peeledFirst : Bool) (symref : Option String)
    {peeled : Option String} (hpeeled : ∀ id ∈ peeled, validateObjectId id = true) :
    (attributeTexts peeledFirst symref peeled).foldlM (readAttribute name) ([], none) =
      some ((symref.map fun target =>
          "ref: ".toList ++ (target.toList ++ '\t' :: (name ++ ['\n']))).getD [],
        peeled.map String.toList) := by
  unfold attributeTexts
  cases peeled with
  | none =>
      cases symref with
      | none => cases peeledFirst <;> rfl
      | some target =>
          cases peeledFirst <;>
            simp only [Option.map_some, Option.toList_some, Option.map_none, Option.toList_none,
              List.append_nil, List.nil_append, List.foldlM_cons, readAttribute_symref, if_true,
              Bool.false_eq_true, if_false] <;> rfl
  | some id =>
      have hid := hpeeled id rfl
      cases symref with
      | none =>
          cases peeledFirst <;>
            simp only [Option.map_some, Option.toList_some, Option.map_none, Option.toList_none,
              List.append_nil, List.nil_append, List.foldlM_cons, readAttribute_peeled name _ hid,
              if_true, Bool.false_eq_true, if_false] <;> rfl
      | some target =>
          cases peeledFirst <;>
            simp only [Option.map_some, Option.toList_some, List.singleton_append, List.foldlM_cons,
              readAttribute_symref, readAttribute_peeled name _ hid, Option.bind_eq_bind,
              Option.bind_some, if_true, Bool.false_eq_true, if_false] <;> rfl

/-- The texts of a line's fields have no blanks in them. -/
theorem fieldTexts_plain {name : String} {symref : Option String} (hname : ref.name = Utf8.encode name)
    (hsymref : ref.symref = symref.map Utf8.encode) {text : List Char}
    (htext : text ∈ ref.id.toList :: name.toList :: attributeTexts style.peeledFirst symref ref.peeled)
    {c : Char} (hc : c.toNat < 0x21) : c ∉ text := by
  have hfield : Utf8.encode (String.ofList text) ∈ fieldsOf style ref := by
    unfold fieldsOf
    rw [attributesOf_eq hsymref, hname]
    rcases List.mem_cons.mp htext with rfl | htext
    · simp
    rcases List.mem_cons.mp htext with rfl | htext
    · simp
    · exact List.mem_append_right _ (List.mem_map_of_mem htext)
  have hplain := (plain_answerFields (mem_fieldsOf.mp hfield)).lossy hc
  rwa [Utf8.lossy_encode, String.toList_ofList] at hplain

/-- What git prints for a ref, as a text. -/
theorem listing_entries {name : String} {symref : Option String} (hname : ref.name = Utf8.encode name)
    (hsymref : ref.symref = symref.map Utf8.encode) : listing ref.entries =
      Utf8.encode (String.ofList ((symref.map fun target =>
          "ref: ".toList ++ (target.toList ++ '\t' :: (name.toList ++ ['\n']))).getD [] ++
        (ref.id.toList ++ '\t' :: (name.toList ++ ['\n'])) ++
        ((ref.peeled.map String.toList).map fun peeled =>
          peeled ++ '\t' :: (name.toList ++ peel.toList ++ ['\n'])).getD [])) := by
  have htab : ∀ rest : List Char, '\t' :: rest = "\t".toList ++ rest := fun _ => rfl
  have hnewline : ['\n'] = "\n".toList := rfl
  simp only [htab, hnewline]
  unfold listing UpstreamRef.entries Entry.lines
  rw [hsymref, hname]
  cases symref <;> cases ref.peeled <;>
    simp only [Option.map_none, Option.map_some, Option.toList_none, Option.toList_some, Option.getD_none,
      Option.getD_some, List.flatMap_cons, List.flatMap_nil, List.nil_append, List.append_nil,
      List.cons_append, List.append_assoc, Utf8.encode_ofList_append, String.ofList_toList]

/-- A line in UTF-8 comes out as git prints its ref. -/
theorem refLines_serverLine (hne : ref.name ≠ []) (hutf8 : InUtf8 ref) :
    refLines (serverLine style ref) = some (listing ref.entries) := by
  obtain ⟨⟨name, hname⟩, htargets⟩ := hutf8
  obtain ⟨symref, hsymref⟩ : ∃ symref : Option String, ref.symref = symref.map Utf8.encode := by
    cases htarget : ref.symref with
    | none => exact ⟨none, rfl⟩
    | some target =>
        obtain ⟨text, rfl⟩ := htargets target htarget
        exact ⟨some text, rfl⟩
  let texts := ref.id.toList :: name.toList :: attributeTexts style.peeledFirst symref ref.peeled
  let newline := if style.newline then ['\n'] else []
  have hline : serverLine style ref =
      Utf8.encode (String.ofList ([' '].intercalate texts ++ newline)) := by
    have hfields : fieldsOf style ref = texts.map fun text => Utf8.encode (String.ofList text) := by
      rw [fieldsOf, attributesOf_eq hsymref, hname]
      simp [texts]
    have hend : Utf8.encode (if style.newline then "\n" else "") =
        Utf8.encode (String.ofList newline) := by
      cases hstyle : style.newline <;> simp [newline, hstyle]
    rw [serverLine, hfields, hend, Utf8.encode_ofList_append, encode_intercalate]
  have htrim : ([' '].intercalate texts ++ newline).rdropWhile (· = '\n') = [' '].intercalate texts := by
    have hnone : '\n' ∉ [' '].intercalate texts := by
      intro hmem
      rcases mem_of_mem_intercalate hmem with heq | ⟨text, htext, hmem⟩
      · exact absurd heq (by decide)
      · exact fieldTexts_plain hname hsymref htext (by decide) hmem
    have hself : ([' '].intercalate texts).rdropWhile (· = '\n') = [' '].intercalate texts := by
      rw [List.rdropWhile_eq_self_iff]
      intro hne hlast
      exact hnone (by simpa using decide_eq_true_eq.mp hlast ▸ List.getLast_mem hne)
    cases hstyle : style.newline with
    | false => simpa [newline, hstyle] using hself
    | true =>
        simp only [newline, hstyle, if_true]
        rw [List.rdropWhile_concat_pos _ _ _ (by simp), hself]
  have hsplit : ([' '].intercalate texts).splitOn ' ' = texts :=
    List.splitOn_intercalate _ (fun _ h => fieldTexts_plain hname hsymref h (by decide)) (by simp [texts])
  have hnonempty : name.toList.isEmpty = false := by
    rw [List.isEmpty_eq_false_iff]
    intro hnil
    exact hne (by rw [hname, Utf8.encode, hnil]; rfl)
  rw [hline, refLines, Utf8.strict_eq_some.mpr rfl, Option.bind_some, String.toList_ofList, htrim,
    hsplit]
  simp only [texts, String.ofList_toList, ref.id_ok, hnonempty, Bool.not_true, Bool.or_self,
    Bool.false_eq_true, if_false, foldlM_attributeTexts name.toList _ symref ref.peeled_ok, Option.map_some]
  rw [listing_entries hname hsymref]

theorem refLines_not_utf8 (hutf8 : ¬ InUtf8 ref) : refLines (serverLine style ref) = none := by
  have hstrict : Utf8.strict (serverLine style ref) = none := by
    rw [Option.eq_none_iff_forall_ne_some]
    exact fun _ htext => hutf8 (inUtf8_of_strict htext)
  rw [refLines, hstrict]
  rfl

end Line

/-- A listing is read as what git prints for it, when all of it is UTF-8. -/
theorem lsRemoteLines_serverAnswer {lines : List (LineStyle × UpstreamRef)}
    (hlines : ∀ line ∈ lines, Sendable line) :
    ((∀ line ∈ lines, InUtf8 line.2) → lsRemoteLines (serverAnswer lines) = some (printedLines lines)) ∧
      ((¬ ∀ line ∈ lines, InUtf8 line.2) → lsRemoteLines (serverAnswer lines) = none) := by
  induction lines with
  | nil => exact ⟨fun _ => lsRemoteLines_flush, fun h => absurd (by simp) h⟩
  | cons line rest ih =>
      obtain ⟨⟨hne, hfits⟩, hrest⟩ := List.forall_mem_cons.mp hlines
      obtain ⟨hread, hunread⟩ := ih hrest
      have hfirst : lsRemoteLines (serverAnswer (line :: rest)) =
          (refLines (serverLine line.1 line.2)).bind fun out =>
            (lsRemoteLines (serverAnswer rest)).map fun more => out ++ more := by
        rw [serverAnswer, List.flatMap_cons, List.append_assoc]
        exact lsRemoteLines_packet hfits _
      rw [hfirst]
      constructor
      · intro hutf8
        obtain ⟨hline, hutf8⟩ := List.forall_mem_cons.mp hutf8
        rw [refLines_serverLine hne hline, hread hutf8, Option.bind_some, Option.map_some, printedLines,
          printedLines, List.flatMap_cons, listing, listing, listing, List.flatMap_append]
      · intro hutf8
        by_cases hline : InUtf8 line.2
        · rw [hunread fun hall => hutf8 (List.forall_mem_cons.mpr ⟨hline, hall⟩)]
          cases refLines (serverLine line.1 line.2) <;> rfl
        · rw [refLines_not_utf8 hline]
          rfl

/-! ## What is read -/

/-- `<oid> <name>` and attributes, each up to the next space, with the ids ids, and newlines after them or
none. -/
def LineOk (payload : List UInt8) : Prop :=
  ∃ (oid name : List Char) (attributes : List (List Char)) (newlines : Nat),
    payload = Utf8.encode (String.ofList ([' '].intercalate (oid :: name :: attributes) ++
      List.replicate newlines '\n')) ∧
    validateObjectId (String.ofList oid) = true ∧ name ≠ [] ∧
    (∀ field ∈ name :: attributes, ' ' ∉ field) ∧
    ∀ id, "peeled:".toList ++ id ∈ attributes → validateObjectId (String.ofList id) = true

/-- Packets one after the other up to one of length zero, and nothing after it. -/
inductive Framed : List UInt8 → List (List UInt8) → Prop
  | done {digits : List UInt8} (hlength : digits.length = 4) (hzero : parseHex digits = some 0) :
      Framed digits []
  | line {digits payload rest : List UInt8} {payloads : List (List UInt8)} (hlength : digits.length = 4)
      (hvalue : parseHex digits = some (payload.length + 4)) (hrest : Framed rest payloads) :
      Framed (digits ++ payload ++ rest) (payload :: payloads)

/-- An attribute with an id of a tag's object is refused when it is none. -/
theorem attributes_ok {name : List Char} {attributes : List (List Char)}
    {read result : List Char × Option (List Char)}
    (h : attributes.foldlM (readAttribute name) read = some result) :
    ∀ id, "peeled:".toList ++ id ∈ attributes → validateObjectId (String.ofList id) = true := by
  induction attributes generalizing read with
  | nil => simp
  | cons field rest ih =>
      rw [List.foldlM_cons] at h
      obtain ⟨next, hnext, hrest⟩ := Option.bind_eq_some_iff.mp h
      intro id hmem
      rcases List.mem_cons.mp hmem with rfl | hmem
      · have hsymref : stripStart "symref-target:".toList ("peeled:".toList ++ id) = none := by
          rw [stripStart_eq_none]
          intro hstart
          exact absurd (List.cons_prefix_cons.mp hstart).1 (by decide)
        rw [readAttribute, hsymref, stripStart_append] at hnext
        dsimp only at hnext
        split at hnext
        · next hid => exact hid
        · cases hnext
      · exact ih hrest id hmem

theorem lineOk_of_refLines {payload out : List UInt8} (h : refLines payload = some out) :
    LineOk payload := by
  obtain ⟨text, htext, h⟩ := Option.bind_eq_some_iff.mp h
  split at h
  · next oid name attributes hsplit =>
      split at h
      · cases h
      next hfields =>
      obtain ⟨result, hresult, -⟩ := Option.map_eq_some_iff.mp h
      have hends : ∀ c ∈ text.toList.rtakeWhile (· = '\n'), c = '\n' := by
        intro c hc
        simpa using List.mem_rtakeWhile_imp hc
      have hline : text.toList = [' '].intercalate (oid :: name :: attributes) ++
          List.replicate (text.toList.rtakeWhile (· = '\n')).length '\n' := by
        rw [← hsplit, List.intercalate_splitOn, ← List.eq_replicate_of_mem hends,
          List.rdropWhile_append_rtakeWhile]
      simp only [Bool.or_eq_true, Bool.not_eq_true', List.isEmpty_iff, not_or, Bool.not_eq_false] at hfields
      refine ⟨oid, name, attributes, (text.toList.rtakeWhile (· = '\n')).length, ?_, hfields.1, hfields.2,
        ?_, attributes_ok hresult⟩
      · rw [← hline, String.ofList_toList, Utf8.strict_eq_some.mp htext]
      · intro field hfield
        exact not_mem_of_mem_splitOn (hsplit ▸ List.mem_cons_of_mem oid hfield)
  · cases h

theorem framed_of_lsRemoteLines {answer out : List UInt8} (h : lsRemoteLines answer = some out) :
    ∃ payloads, Framed answer payloads ∧ ∀ payload ∈ payloads, LineOk payload := by
  fun_induction lsRemoteLines answer generalizing out with
  | case1 | case2 | case4 | case5 => cases h
  | case3 answer hlong hhex hend =>
      have hall : answer.take 4 = answer := by
        rw [List.isEmpty_iff, List.drop_eq_nil_iff] at hend
        exact List.take_of_length_le hend
      rw [hall] at hhex
      have hlength : answer.length = 4 := by
        rw [List.isEmpty_iff, List.drop_eq_nil_iff] at hend
        omega
      exact ⟨[], .done hlength hhex, by simp⟩
  | case6 answer hlong len hlen hhex hbounds ih =>
      obtain ⟨first, hfirst, h⟩ := Option.bind_eq_some_iff.mp h
      obtain ⟨more, hmore, -⟩ := Option.map_eq_some_iff.mp h
      obtain ⟨payloads, hframed, hok⟩ := ih hmore
      refine ⟨(answer.take len).drop 4 :: payloads, ?_, ?_⟩
      · have hpacket : answer = answer.take 4 ++ (answer.take len).drop 4 ++ answer.drop len := by
          have hfour : (answer.take len).take 4 = answer.take 4 := by
            rw [List.take_take, Nat.min_eq_left (by omega)]
          rw [← hfour, List.take_append_drop, List.take_append_drop]
        have hdigits : (answer.take 4).length = 4 := List.length_take_of_le (by omega)
        have hvalue : parseHex (answer.take 4) = some (((answer.take len).drop 4).length + 4) := by
          rw [hhex, List.length_drop, List.length_take_of_le (by omega), Nat.sub_add_cancel (by omega)]
        have hline := Framed.line hdigits hvalue hframed
        rwa [← hpacket] at hline
      · exact List.forall_mem_cons.mpr ⟨lineOk_of_refLines hfirst, hok⟩

theorem lsRemoteLines_of_len {answer : List UInt8} {len : Nat} (hfour : 4 ≤ answer.length)
    (hhex : parseHex (answer.take 4) = some len) (hlen : 4 ≤ len) (hend : len ≤ answer.length) :
    lsRemoteLines answer = (refLines ((answer.take len).drop 4)).bind fun out =>
      (lsRemoteLines (answer.drop len)).map fun more => out ++ more := by
  rw [lsRemoteLines, if_neg (by omega), hhex]
  split
  · next heq => cases heq
  · next heq =>
      cases heq
      omega
  · next len' _ heq =>
      cases heq
      rw [if_neg (by omega)]

/-- An answer that is read does not go on as another. -/
theorem eq_of_starts {a b outA outB : List UInt8} (ha : lsRemoteLines a = some outA)
    (hb : lsRemoteLines b = some outB) (h : a <+: b) : a = b := by
  obtain ⟨tail, rfl⟩ := h
  suffices htail : tail = [] by rw [htail, List.append_nil]
  fun_induction lsRemoteLines a generalizing outA outB with
  | case1 | case2 | case4 | case5 => cases ha
  | case3 answer hlong hhex hend =>
      rw [lsRemoteLines, if_neg (by rw [List.length_append]; omega),
        List.take_append_of_le_length (by omega), hhex, List.drop_append_of_le_length (by omega)] at hb
      change (if (answer.drop 4 ++ tail).isEmpty = true then some [] else none) = some outB at hb
      split at hb
      · next hall =>
          rw [List.isEmpty_iff, List.append_eq_nil_iff] at hall
          exact hall.2
      · cases hb
  | case6 answer hlong len hlen hhex hbounds ih =>
      have hlength : (answer ++ tail).length = answer.length + tail.length := List.length_append
      have hhex' : parseHex ((answer ++ tail).take 4) = some len := by
        rw [List.take_append_of_le_length (by omega), hhex]
      rw [lsRemoteLines_of_len (by omega) hhex' (by omega) (by omega),
        List.drop_append_of_le_length (by omega)] at hb
      obtain ⟨_, _, hmoreA⟩ := Option.bind_eq_some_iff.mp ha
      obtain ⟨_, hnextA, _⟩ := Option.map_eq_some_iff.mp hmoreA
      obtain ⟨_, _, hmoreB⟩ := Option.bind_eq_some_iff.mp hb
      obtain ⟨_, hnextB, _⟩ := Option.map_eq_some_iff.mp hmoreB
      exact ih hnextA hnextB

/-- Whatever the bytes, the parser stays within them. A listing that a server writes is read as the lines
git prints when it is UTF-8, and left to git when it is not; what is read is packets of lines up to a
mark of the end, and is not read cut off or with more after it. -/
theorem lsRemoteLines_exact :
    (∀ lines : List (LineStyle × UpstreamRef), (∀ line ∈ lines, Sendable line) →
      ((∀ line ∈ lines, InUtf8 line.2) →
        lsRemoteLinesChecked (serverAnswer lines) = .ok (some (printedLines lines))) ∧
      ((¬ ∀ line ∈ lines, InUtf8 line.2) → lsRemoteLinesChecked (serverAnswer lines) = .ok none)) ∧
    ∀ answer, ∃ result, lsRemoteLinesChecked answer = .ok result ∧ ∀ out, result = some out →
      (∃ payloads, Framed answer payloads ∧ ∀ payload ∈ payloads, LineOk payload) ∧
        ∀ other outOther, (answer <+: other ∨ other <+: answer) →
          lsRemoteLinesChecked other = .ok (some outOther) → other = answer := by
  constructor
  · intro lines hlines
    rw [lsRemoteLinesChecked_eq, Except.ok.injEq, Except.ok.injEq]
    exact lsRemoteLines_serverAnswer hlines
  intro answer
  refine ⟨lsRemoteLines answer, lsRemoteLinesChecked_eq answer, ?_⟩
  intro out hout
  refine ⟨framed_of_lsRemoteLines hout, ?_⟩
  intro other outOther hcut hother
  rw [lsRemoteLinesChecked_eq, Except.ok.injEq] at hother
  rcases hcut with hcut | hcut
  · exact (eq_of_starts hout hother hcut).symm
  · exact eq_of_starts hother hout hcut

/-! ## Two listings -/

/-- The refs of `tagged`, written with the attributes the other way round and no newlines. -/
def taggedLines : List (LineStyle × UpstreamRef) := tagged.refs.map fun ref => (⟨true, false⟩, ref)

theorem tagged_listing_read : lsRemoteLinesChecked (serverAnswer taggedLines) =
    .ok (some (printedLines taggedLines)) := by
  have hsendable : ∀ line ∈ taggedLines, Sendable line := by
    intro line hline
    obtain ⟨ref, href, rfl⟩ := List.mem_map.mp hline
    simp only [tagged, List.mem_cons, List.not_mem_nil, or_false] at href
    rcases href with rfl | rfl | rfl
    all_goals
      unfold Sendable
      decide
  have hutf8 : ∀ line ∈ taggedLines, InUtf8 line.2 := by
    intro line hline
    obtain ⟨ref, href, rfl⟩ := List.mem_map.mp hline
    simp only [tagged, List.mem_cons, List.not_mem_nil, or_false] at href
    rcases href with rfl | rfl | rfl
    · exact ⟨⟨"HEAD", rfl⟩, by simp⟩
    · exact ⟨⟨"refs/heads/main", rfl⟩, by simp⟩
    · exact ⟨⟨"refs/tags/v1", rfl⟩, by simp⟩
  exact (lsRemoteLines_exact.1 taggedLines hsendable).1 hutf8

theorem latin1_refByte : ∀ b ∈ Utf8.encode "refs/heads/" ++ [0xe9], refByte b = true :=
  forall_mem_of_all (by decide)

theorem someId_ok : validateObjectId "dbfe46bd1d068a7e5b41086298ce23052c8d521f" = true := by decide

/-- A branch whose name is the byte of `é` in Latin-1. -/
def latin1Branch : UpstreamRef where
  name := Utf8.encode "refs/heads/" ++ [0xe9]
  id := "dbfe46bd1d068a7e5b41086298ce23052c8d521f"
  symref := none
  peeled := none
  name_ok := latin1_refByte
  id_ok := someId_ok
  symref_ok := noTarget_refByte
  peeled_ok := notPeeled

/-- Git prints that branch as it is; the listing of it is not read. -/
theorem latin1_listing_left : ¬ ∀ lines : List (LineStyle × UpstreamRef),
    (∀ line ∈ lines, Sendable line) →
      lsRemoteLinesChecked (serverAnswer lines) = .ok (some (printedLines lines)) := by
  intro hclaim
  have hsendable : ∀ line ∈ [((⟨false, true⟩ : LineStyle), latin1Branch)], Sendable line := by
    intro line hline
    obtain rfl := List.mem_singleton.mp hline
    unfold Sendable
    decide
  have hread := hclaim _ hsendable
  have hnot : refLines (serverLine ⟨false, true⟩ latin1Branch) = none := by decide
  have hnone : lsRemoteLines (serverAnswer [((⟨false, true⟩ : LineStyle), latin1Branch)]) = none := by
    rw [serverAnswer, List.flatMap_cons, List.append_assoc,
      lsRemoteLines_packet (hsendable _ (by simp)).2, hnot]
    rfl
  rw [lsRemoteLinesChecked_eq, hnone] at hread
  cases hread

end Ripclone.LsRefs
