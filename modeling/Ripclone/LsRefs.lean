import Ripclone.Library.PktLine
import Ripclone.LsRemote

/-!
# Reading upstream's refs in one request

`ls-refs` of git's protocol v2 over HTTP, in place of a `git ls-remote` process. The request names the
refs wanted by how their names start; the answer is rewritten as the lines `git ls-remote --symref`
prints, for the same reader. An answer of any other shape is none, and the caller runs
`git ls-remote`.

The server stands outside: it answers a request with the refs whose names start with one of the
prefixes the request asks for.
-/

namespace Ripclone.LsRefs

open Ripclone.Library PktLine

/-- The most an answer may hold. -/
def maxAnswer : Nat := 1048576

def agent : String := "git/ripclone-0.1.0"

/-- The prefixes to ask for, each once. A `^{}` at the end is dropped. -/
def prefixesOf (candidates : List String) : List String :=
  candidates.foldl (fun seen candidate =>
    if trimPeels candidate ∈ seen then seen else seen ++ [trimPeels candidate]) []

def requestBody (candidates : List String) : List UInt8 :=
  packet (Utf8.encode "command=ls-refs\n") ++ packet (Utf8.encode ("agent=" ++ agent ++ "\n")) ++
    packet (Utf8.encode "object-format=sha1\n") ++ fourHex 1 ++ packet (Utf8.encode "peel\n") ++
    packet (Utf8.encode "symrefs\n") ++
    (prefixesOf candidates).flatMap
      (fun start => packet (Utf8.encode ("ref-prefix " ++ start ++ "\n"))) ++ fourHex 0

/-- What an attribute of a ref adds: a symbolic ref's line, or the object of a tag. -/
def readAttribute (name : List Char) (read : List Char × Option (List Char))
    (field : List Char) : Option (List Char × Option (List Char)) :=
  match stripStart "symref-target:".toList field with
  | some target => some (read.1 ++ ("ref: ".toList ++ (target ++ '\t' :: (name ++ ['\n']))), read.2)
  | none =>
    match stripStart "peeled:".toList field with
    | some oid => if validateObjectId (String.ofList oid) then some (read.1, some oid) else none
    | none => some read

/-- The lines for one ref of an answer. -/
def refLines (line : List UInt8) : Option (List UInt8) :=
  (Utf8.strict line).bind fun text =>
    match (text.toList.rdropWhile (· = '\n')).splitOn ' ' with
    | oid :: name :: attributes =>
      if !validateObjectId (String.ofList oid) || name.isEmpty then none
      else
        (attributes.foldlM (readAttribute name) ([], none)).map fun (symrefs, peeled) =>
          Utf8.encode (String.ofList (symrefs ++ (oid ++ '\t' :: (name ++ ['\n'])) ++
            (peeled.map fun peeled => peeled ++ '\t' :: (name ++ peel.toList ++ ['\n'])).getD []))
    | _ => none

/-- An answer as the lines of a listing. -/
def lsRemoteLines (answer : List UInt8) : Option (List UInt8) :=
  if answer.length < 4 then none
  else
    match parseHex (answer.take 4) with
    | none => none
    | some 0 => if (answer.drop 4).isEmpty then some [] else none
    | some len =>
      if len < 4 ∨ answer.length < len then none
      else
        (refLines ((answer.take len).drop 4)).bind fun out =>
          (lsRemoteLines (answer.drop len)).map fun more => out ++ more
termination_by answer.length
decreasing_by simp only [List.length_drop]; omega

/-- The lines for the candidates, when a request for them is answered. `post` sends a request and
gives the answer to it, none when there is no connection, another status or no answer in time. -/
def lsRefs (post : List UInt8 → Option (List UInt8)) (candidates : List String) :
    Option (List UInt8) :=
  (post (requestBody candidates)).bind fun body =>
    if maxAnswer < body.length then none else lsRemoteLines body

/-! ## The server -/

/-- The prefix an argument of a request asks for. -/
def argumentStart : Pkt → Option (List UInt8)
  | .data payload =>
    -- a line's newline is not part of the argument
    let argument := if payload.getLast? = some 0x0a then payload.dropLast else payload
    if (Utf8.encode "ref-prefix ").isPrefixOf argument then
      some (argument.drop (Utf8.encode "ref-prefix ").length)
    else none
  | _ => none

/-- The prefixes a request asks for: those of the arguments, which follow the first mark. -/
def refPrefixes (request : List UInt8) : List (List UInt8) :=
  ((pkts request).dropWhile (· ≠ .delim)).filterMap argumentStart

/-- The fields of one ref in an answer. -/
def answerFields (ref : UpstreamRef) : List (List UInt8) :=
  [Utf8.encode ref.id, ref.name] ++
    (ref.symref.map fun target => Utf8.encode "symref-target:" ++ target).toList ++
    (ref.peeled.map fun id => Utf8.encode "peeled:" ++ Utf8.encode id).toList

def answerLine (ref : UpstreamRef) : List UInt8 :=
  (Utf8.encode " ").intercalate (answerFields ref) ++ Utf8.encode "\n"

/-- The refs whose names start with one of the prefixes. -/
def under (upstream : Upstream) (starts : List (List UInt8)) : List UpstreamRef :=
  upstream.refs.filter fun ref => starts.any fun start => start.isPrefixOf ref.name

/-- The answer to a request for these prefixes: the refs they ask for, each in a packet. -/
def answerOf (upstream : Upstream) (starts : List (List UInt8)) : List UInt8 :=
  (under upstream starts).flatMap (fun ref => packet (answerLine ref)) ++ fourHex 0

/-- The server answers a request with the refs it asks for, or not at all. -/
structure Serves (upstream : Upstream) (post : List UInt8 → Option (List UInt8)) : Prop where
  answers : ∀ {request answer}, post request = some answer →
    answer = answerOf upstream (refPrefixes request)
  /-- A packet holds no more than its digits can say. -/
  fits : ∀ {request answer}, post request = some answer →
    ∀ ref ∈ under upstream (refPrefixes request), (answerLine ref).length + 4 < 65536

/-! ## Reading an answer -/

section Fields

variable {fields : List (List UInt8)}

theorem lossy_intercalate (fields : List (List UInt8)) :
    (Utf8.lossy ((Utf8.encode " ").intercalate fields)).toList =
      [' '].intercalate (fields.map fun field => (Utf8.lossy field).toList) := by
  have hspace : Utf8.encode " " = [UInt8.ofNat 0x20] := rfl
  induction fields with
  | nil => rfl
  | cons field fields ih =>
      cases fields with
      | nil => simp
      | cons next fields =>
          rw [List.intercalate_cons_cons, hspace, List.append_assoc, List.singleton_append,
            Utf8.lossy_append_ascii (by decide), ← hspace, ih]
          simp only [List.map_cons, List.intercalate_cons_cons, List.append_assoc,
            List.singleton_append]

theorem encode_intercalate (texts : List (List Char)) :
    Utf8.encode (String.ofList ([' '].intercalate texts)) =
      (Utf8.encode " ").intercalate (texts.map fun text => Utf8.encode (String.ofList text)) := by
  induction texts with
  | nil => rfl
  | cons text texts ih =>
      cases texts with
      | nil => simp
      | cons next texts =>
          rw [List.intercalate_cons_cons, Utf8.encode_ofList_append, Utf8.encode_ofList_append, ih]
          simp only [List.map_cons, List.intercalate_cons_cons]

/-- A field of a line in UTF-8 is in UTF-8. -/
theorem encode_lossy_field (hplain : ∀ field ∈ fields, Plain field) (hne : fields ≠ [])
    (h : Utf8.encode (Utf8.lossy ((Utf8.encode " ").intercalate fields)) =
      (Utf8.encode " ").intercalate fields) :
    ∀ field ∈ fields, Utf8.encode (Utf8.lossy field) = field := by
  have hspace : Utf8.encode " " = [0x20] := rfl
  have hsplit : ∀ fields : List (List UInt8), (∀ field ∈ fields, (0x20 : UInt8) ∉ field) →
      fields ≠ [] → ((Utf8.encode " ").intercalate fields).splitOn 0x20 = fields := by
    intro fields hfields hne
    rw [hspace]
    exact List.splitOn_intercalate _ hfields hne
  have hfields : ∀ field ∈ fields, (0x20 : UInt8) ∉ field := by
    intro field hfield hmem
    exact absurd (hplain field hfield _ hmem) (by decide)
  have htexts : ∀ field ∈ fields.map fun field => Utf8.encode (Utf8.lossy field),
      (0x20 : UInt8) ∉ field := by
    intro text htext hmem
    obtain ⟨field, hfield, rfl⟩ := List.mem_map.mp htext
    have hchar : ' ' ∈ (Utf8.lossy field).toList := Utf8.mem_of_mem_encode (by decide) hmem
    exact (hplain field hfield).lossy (by decide) hchar
  have hmap : fields.map (fun field => Utf8.encode (Utf8.lossy field)) = fields := by
    have hline : (Utf8.encode " ").intercalate (fields.map fun field =>
        Utf8.encode (Utf8.lossy field)) = (Utf8.encode " ").intercalate fields := by
      rw [← h, ← String.ofList_toList (s := Utf8.lossy _), lossy_intercalate, encode_intercalate,
        List.map_map]
      simp [Function.comp_def]
    rw [← hsplit _ htexts (by simpa using hne), hline, hsplit _ hfields hne]
  intro field hfield
  exact List.map_inj_left.mp (hmap.trans (List.map_id fields).symm) field hfield

end Fields

section Answer

variable {ref : UpstreamRef}

theorem plain_id {id : String} (hid : validateObjectId id = true) : Plain (Utf8.encode id) := by
  apply plain_encode
  intro c hc
  have hrange := lowercaseHex_range ((validateObjectId_ok hid).2 c hc)
  omega

theorem plain_answerFields {field : List UInt8} (h : field ∈ answerFields ref) : Plain field := by
  rcases List.mem_append.mp h with h | hpeeled
  · rcases List.mem_append.mp h with h | hsymref
    · rcases List.mem_cons.mp h with rfl | h
      · exact plain_id ref.id_ok
      · rw [List.mem_singleton.mp h]
        exact refByte_plain ref.name_ok
    · obtain ⟨target, htarget, rfl⟩ := Option.map_eq_some_iff.mp (Option.mem_toList.mp hsymref)
      exact (plain_encode (forall_mem_of_all (by decide))).append (refByte_plain (ref.symref_ok target htarget))
  · obtain ⟨id, hid, rfl⟩ := Option.map_eq_some_iff.mp (Option.mem_toList.mp hpeeled)
    exact (plain_encode (forall_mem_of_all (by decide))).append (plain_id (ref.peeled_ok id hid))

/-- The text of a ref's line in an answer. -/
def answerTexts (ref : UpstreamRef) : List (List Char) :=
  [ref.id.toList, (Utf8.lossy ref.name).toList] ++
    (ref.symref.map fun target => "symref-target:".toList ++ (Utf8.lossy target).toList).toList ++
    (ref.peeled.map fun id => "peeled:".toList ++ id.toList).toList

theorem lossy_answerFields :
    (answerFields ref).map (fun field => (Utf8.lossy field).toList) = answerTexts ref := by
  have hsymref : ∀ target, (Utf8.lossy (Utf8.encode "symref-target:" ++ target)).toList =
      "symref-target:".toList ++ (Utf8.lossy target).toList := by
    intro target
    rw [Utf8.lossy_encode_append, String.toList_append]
  have hpeeled : ∀ id, (Utf8.lossy (Utf8.encode "peeled:" ++ Utf8.encode id)).toList =
      "peeled:".toList ++ id.toList := by
    intro id
    rw [Utf8.lossy_encode_append, String.toList_append, Utf8.lossy_encode]
  cases hsym : ref.symref <;> cases hpeel : ref.peeled <;>
    simp [answerFields, answerTexts, hsym, hpeel, hsymref, hpeeled]

theorem answerTexts_plain {text : List Char} (h : text ∈ answerTexts ref) {c : Char}
    (hc : c.toNat < 0x21) : c ∉ text := by
  rw [← lossy_answerFields] at h
  obtain ⟨field, hfield, rfl⟩ := List.mem_map.mp h
  exact (plain_answerFields hfield).lossy hc

theorem splitOn_answerTexts :
    ([' '].intercalate (answerTexts ref)).splitOn ' ' = answerTexts ref :=
  List.splitOn_intercalate _ (fun _ h => answerTexts_plain h (by decide)) (by simp [answerTexts])

theorem lossy_answerLine :
    (Utf8.lossy (answerLine ref)).toList = [' '].intercalate (answerTexts ref) ++ ['\n'] := by
  have hnewline : Utf8.encode "\n" = [UInt8.ofNat 10] := rfl
  rw [answerLine, hnewline, Utf8.lossy_append_ascii (by decide), lossy_intercalate,
    lossy_answerFields]
  rfl

/-- A line's newline is all that is taken off its end. -/
theorem rdropWhile_answerLine :
    (Utf8.lossy (answerLine ref)).toList.rdropWhile (· = '\n') =
      [' '].intercalate (answerTexts ref) := by
  have hnewline : '\n' ∉ [' '].intercalate (answerTexts ref) := by
    intro hmem
    rcases mem_of_mem_intercalate hmem with heq | ⟨text, htext, hmem⟩
    · exact absurd heq (by decide)
    · exact answerTexts_plain htext (by decide) hmem
  rw [lossy_answerLine, List.rdropWhile_concat_pos _ _ _ (by simp), List.rdropWhile_eq_self_iff]
  intro hne hlast
  exact hnewline (by simpa using decide_eq_true_eq.mp hlast ▸ List.getLast_mem hne)

/-- A line in UTF-8 has its name in UTF-8. -/
theorem encode_lossy_name {text : String} (h : Utf8.strict (answerLine ref) = some text) :
    Utf8.encode (Utf8.lossy ref.name) = ref.name := by
  have hline : Utf8.encode (Utf8.lossy (answerLine ref)) = answerLine ref := by
    rw [← Utf8.strict_eq_some.mp h, Utf8.lossy_encode]
  have hfields : Utf8.encode (Utf8.lossy ((Utf8.encode " ").intercalate (answerFields ref))) =
      (Utf8.encode " ").intercalate (answerFields ref) := by
    rw [← String.ofList_toList (s := Utf8.lossy (answerLine ref)), lossy_answerLine,
      Utf8.encode_ofList_append, answerLine] at hline
    have hcancel := List.append_cancel_right hline
    rw [← String.ofList_toList (s := Utf8.lossy _), lossy_intercalate, lossy_answerFields]
    exact hcancel
  exact encode_lossy_field (fun _ => plain_answerFields) (by simp [answerFields]) hfields _
    (by simp [answerFields])

theorem readAttribute_symref (name target : List Char) (read : List Char × Option (List Char)) :
    readAttribute name read ("symref-target:".toList ++ target) =
      some (read.1 ++ ("ref: ".toList ++ (target ++ '\t' :: (name ++ ['\n']))), read.2) := by
  rw [readAttribute, stripStart_append]

theorem readAttribute_peeled (name : List Char) (read : List Char × Option (List Char)) {id : String}
    (hid : validateObjectId id = true) :
    readAttribute name read ("peeled:".toList ++ id.toList) = some (read.1, some id.toList) := by
  have hnone : stripStart "symref-target:".toList ("peeled:".toList ++ id.toList) = none := by
    rw [stripStart_eq_none]
    intro hstart
    exact absurd (List.cons_prefix_cons.mp hstart).1 (by decide)
  rw [readAttribute, hnone, stripStart_append]
  simp [hid]

/-- The attributes of a ref's line, read one after another. -/
theorem foldlM_attributes (name : List Char) :
    ((ref.symref.map fun target => "symref-target:".toList ++ (Utf8.lossy target).toList).toList ++
        (ref.peeled.map fun id => "peeled:".toList ++ id.toList).toList).foldlM
        (readAttribute name) ([], none) =
      some ((ref.symref.map fun target =>
          "ref: ".toList ++ ((Utf8.lossy target).toList ++ '\t' :: (name ++ ['\n']))).getD [],
        ref.peeled.map String.toList) := by
  cases hsym : ref.symref with
  | none =>
      cases hpeel : ref.peeled with
      | none => rfl
      | some id =>
          simp only [Option.map_none, Option.toList_none, Option.map_some, Option.toList_some,
            List.nil_append, List.foldlM_cons, List.foldlM_nil,
            readAttribute_peeled name _ (ref.peeled_ok id hpeel)]
          rfl
  | some target =>
      cases hpeel : ref.peeled with
      | none =>
          simp only [Option.map_none, Option.toList_none, Option.map_some, Option.toList_some,
            List.append_nil, List.foldlM_cons, List.foldlM_nil, readAttribute_symref]
          rfl
      | some id =>
          simp only [Option.map_some, Option.toList_some, List.singleton_append, List.foldlM_cons,
            List.foldlM_nil, readAttribute_symref, Option.bind_eq_bind, Option.bind_some,
            readAttribute_peeled name _ (ref.peeled_ok id hpeel), Option.pure_def, Option.getD_some]
          rfl

/-- The text of a ref's lines. -/
theorem unlines_entries :
    unlines (ref.entries.flatMap Entry.texts) =
      (ref.symref.map fun target => "ref: ".toList ++ ((Utf8.lossy target).toList ++
          '\t' :: ((Utf8.lossy ref.name).toList ++ ['\n']))).getD [] ++
        (ref.id.toList ++ '\t' :: ((Utf8.lossy ref.name).toList ++ ['\n'])) ++
        ((ref.peeled.map String.toList).map fun peeled =>
          peeled ++ '\t' :: ((Utf8.lossy ref.name).toList ++ peel.toList ++ ['\n'])).getD [] := by
  have hpeel : (Utf8.lossy (ref.name ++ Utf8.encode peel)).toList =
      (Utf8.lossy ref.name).toList ++ peel.toList := by
    rw [show Utf8.encode peel = UInt8.ofNat 0x5e :: Utf8.encode "\x7b\x7d" from rfl,
      Utf8.lossy_append_ascii (by decide), Utf8.lossy_encode]
    rfl
  cases hsymref : ref.symref <;> cases hpeeled : ref.peeled <;>
    simp [UpstreamRef.entries, Entry.texts, Entry.text, hsymref, hpeeled, hpeel, unlines]

theorem refLines_of_strict {text : String} (hname : ref.name ≠ [])
    (h : Utf8.strict (answerLine ref) = some text) :
    refLines (answerLine ref) =
      some (Utf8.encode (String.ofList (unlines (ref.entries.flatMap Entry.texts)))) := by
  have htext : text = Utf8.lossy (answerLine ref) := by
    rw [← Utf8.strict_eq_some.mp h, Utf8.lossy_encode]
  have hne : (Utf8.lossy ref.name).toList.isEmpty = false := by
    obtain ⟨b, rest, hbytes⟩ := List.exists_cons_of_ne_nil hname
    rw [hbytes, Utf8.decode_cons]
    rfl
  rw [refLines, h, Option.bind_some, htext, rdropWhile_answerLine, splitOn_answerTexts]
  simp only [answerTexts, List.cons_append, List.nil_append, String.ofList_toList, ref.id_ok, hne,
    Bool.not_true, Bool.or_self, Bool.false_eq_true, if_false, foldlM_attributes, Option.map_some]
  rw [unlines_entries]

/-- The lines a ref's line of an answer is rewritten as. -/
theorem refLines_answerLine {out : List UInt8} (hname : ref.name ≠ [])
    (h : refLines (answerLine ref) = some out) :
    out = Utf8.encode (String.ofList (unlines (ref.entries.flatMap Entry.texts))) ∧
      Utf8.encode (Utf8.lossy ref.name) = ref.name := by
  cases hstrict : Utf8.strict (answerLine ref) with
  | none =>
      rw [refLines, hstrict] at h
      cases h
  | some text =>
      rw [refLines_of_strict hname hstrict] at h
      exact ⟨(Option.some.inj h).symm, encode_lossy_name hstrict⟩

end Answer

theorem lsRemoteLines_packet {payload : List UInt8} (h : payload.length + 4 < 65536)
    (rest : List UInt8) :
    lsRemoteLines (packet payload ++ rest) =
      (refLines payload).bind fun out => (lsRemoteLines rest).map fun more => out ++ more := by
  obtain ⟨hhex, htake, hdrop⟩ := take_packet h rest
  have hlen : (packet payload ++ rest).length = payload.length + 4 + rest.length := by
    rw [List.length_append, length_packet h]
  rw [lsRemoteLines, if_neg (by omega), hhex]
  split
  · next heq => cases heq
  · next heq => simp at heq
  · next len _ heq =>
      cases heq
      rw [if_neg (by omega), htake, hdrop, drop_packet h]

theorem lsRemoteLines_flush : lsRemoteLines (fourHex 0) = some [] := by
  have hhex : parseHex ((fourHex 0).take 4) = some 0 := rfl
  rw [lsRemoteLines, hhex]
  rfl

/-- The lines of an answer, ref by ref. -/
theorem lsRemoteLines_answer {refs : List UpstreamRef} {out : List UInt8}
    (hfits : ∀ ref ∈ refs, (answerLine ref).length + 4 < 65536) (hne : ∀ ref ∈ refs, ref.name ≠ [])
    (h : lsRemoteLines (refs.flatMap (fun ref => packet (answerLine ref)) ++ fourHex 0) =
      some out) :
    (Utf8.lossy out).toList =
        unlines ((refs.flatMap UpstreamRef.entries).flatMap Entry.texts) ∧
      ∀ ref ∈ refs, Utf8.encode (Utf8.lossy ref.name) = ref.name := by
  induction refs generalizing out with
  | nil =>
      rw [List.flatMap_nil, List.nil_append, lsRemoteLines_flush] at h
      cases h
      exact ⟨rfl, fun _ href => absurd href List.not_mem_nil⟩
  | cons ref refs ih =>
      rw [List.flatMap_cons, List.append_assoc,
        lsRemoteLines_packet (hfits ref List.mem_cons_self)] at h
      obtain ⟨first, hfirst, h⟩ := Option.bind_eq_some_iff.mp h
      obtain ⟨more, hmore, rfl⟩ := Option.map_eq_some_iff.mp h
      obtain ⟨rfl, hname⟩ := refLines_answerLine (hne ref List.mem_cons_self) hfirst
      obtain ⟨htext, hnames⟩ := ih (fun ref hmem => hfits ref (List.mem_cons_of_mem _ hmem))
        (fun ref hmem => hne ref (List.mem_cons_of_mem _ hmem)) hmore
      constructor
      · rw [Utf8.lossy_encode_append, String.toList_append, String.toList_ofList, htext,
          List.flatMap_cons, List.flatMap_append]
        simp [unlines]
      · intro ref' hmem
        rcases List.mem_cons.mp hmem with rfl | hmem
        · exact hname
        · exact hnames ref' hmem

/-! ## The request -/

theorem argumentStart_line (start : String) :
    argumentStart (.data (Utf8.encode ("ref-prefix " ++ start ++ "\n"))) =
      some (Utf8.encode start) := by
  have hline : Utf8.encode ("ref-prefix " ++ start ++ "\n") =
      Utf8.encode "ref-prefix " ++ Utf8.encode start ++ [0x0a] := by
    rw [Utf8.encode_append, Utf8.encode_append]
    rfl
  have hstart : (Utf8.encode "ref-prefix ").isPrefixOf
      (Utf8.encode "ref-prefix " ++ Utf8.encode start) = true :=
    List.isPrefixOf_iff_prefix.mpr (List.prefix_append _ _)
  rw [hline, argumentStart]
  simp only [List.getLast?_append, List.getLast?_singleton, Option.some_or, if_true,
    List.dropLast_concat, hstart, List.drop_left]

/-- A request is read as asking for the prefixes it was made for. -/
theorem refPrefixes_requestBody {candidates : List String}
    (hfits : ∀ start ∈ prefixesOf candidates, (Utf8.encode start).length < 65000) :
    refPrefixes (requestBody candidates) = (prefixesOf candidates).map Utf8.encode := by
  have hpayloads : ∀ payload ∈ (prefixesOf candidates).map fun start =>
      Utf8.encode ("ref-prefix " ++ start ++ "\n"), payload.length + 4 < 65536 := by
    intro payload hpayload
    obtain ⟨start, hstart, rfl⟩ := List.mem_map.mp hpayload
    have hlen : (Utf8.encode ("ref-prefix " ++ start ++ "\n")).length =
        (Utf8.encode start).length + 12 := by
      rw [Utf8.encode_append, Utf8.encode_append, List.length_append, List.length_append,
        show (Utf8.encode "ref-prefix ").length = 11 from rfl,
        show (Utf8.encode "\n").length = 1 from rfl]
      omega
    have := hfits start hstart
    omega
  have hstarts := pkts_flatMap_packet hpayloads (fourHex 0)
  have hflush : pkts (fourHex 0) = [.flush] := by
    have h := pkts_flush []
    rw [List.append_nil] at h
    rw [h, pkts]
    rfl
  rw [List.flatMap_map, hflush] at hstarts
  rw [refPrefixes, requestBody]
  simp only [List.append_assoc]
  rw [pkts_packet (by decide), pkts_packet (by decide), pkts_packet (by decide), pkts_delim,
    pkts_packet (by decide), pkts_packet (by decide), hstarts]
  have hargs : (((prefixesOf candidates).map fun start =>
      Utf8.encode ("ref-prefix " ++ start ++ "\n")).map Pkt.data).filterMap argumentStart =
      (prefixesOf candidates).map Utf8.encode := by
    rw [List.map_map, List.filterMap_map, ← List.filterMap_eq_map]
    congr 1
    funext start
    exact argumentStart_line start
  have hpeel : argumentStart (.data (Utf8.encode "peel\n")) = none := by decide
  have hsymrefs : argumentStart (.data (Utf8.encode "symrefs\n")) = none := by decide
  -- what stands before the mark holds no argument
  simp only [List.dropWhile_cons, reduceCtorEq, ne_eq, not_false_eq_true, decide_true, if_true,
    not_true_eq_false, decide_false, Bool.false_eq_true, if_false, List.filterMap_cons,
    List.filterMap_append, hargs, hpeel, hsymrefs]
  simp [argumentStart]

end Ripclone.LsRefs
