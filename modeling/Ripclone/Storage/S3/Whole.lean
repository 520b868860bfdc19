import Ripclone.Storage.S3
import Ripclone.Library.Result

/-!
# Objects are whole

Every part of a multipart upload is a slice of one file, and an upload is completed with all of them in
order. Whatever the bucket does twice or late, an object under a name has the bytes of that name's hash.
-/

namespace Ripclone.S3

open Ripclone.Library

/-! ## The parts of a file -/

section Parts

variable {len partBytes : Nat} {data : Bytes}

theorem divCeil_le {a b : Nat} : a ≤ divCeil a b * b ∨ b = 0 := by
  rcases Nat.eq_zero_or_pos b with hb | hb
  · exact .inr hb
  · left
    have hdiv := Nat.div_add_mod' a b
    have hmod := Nat.mod_lt a hb
    unfold divCeil
    split
    · next hzero => omega
    · rw [Nat.add_mul]
      omega

theorem mul_lt_of_lt_divCeil {a b i : Nat} (hb : 0 < b) (hi : i < divCeil a b) : i * b < a := by
  have hdiv := Nat.div_add_mod' a b
  unfold divCeil at hi
  split at hi
  · next hzero =>
      have hle := Nat.mul_le_mul_right b (Nat.succ_le_of_lt hi)
      rw [Nat.succ_mul] at hle
      omega
  · next hpos =>
      have hle := Nat.mul_le_mul_right b (Nat.le_of_lt_succ hi)
      omega

/-- Bigger parts are not more. -/
theorem divCeil_mono {a b c : Nat} (hb : 0 < b) (hbc : b ≤ c) : divCeil a c ≤ divCeil a b := by
  by_contra hlt
  have hless := mul_lt_of_lt_divCeil (Nat.lt_of_lt_of_le hb hbc) (Nat.lt_of_not_le hlt)
  have hall : a ≤ divCeil a b * b := divCeil_le.resolve_right (Nat.ne_of_gt hb)
  exact Nat.lt_irrefl a (Nat.lt_of_le_of_lt (Nat.le_trans hall (Nat.mul_le_mul_left _ hbc)) hless)

theorem partSize_le (h : multipartUploadPartBytes len = .ok partBytes) : multipartUploadPartSize ≤ partBytes := by
  simp only [multipartUploadPartBytes, ite_throw_eq_ok] at h
  obtain rfl := pure_eq_ok.mp h.2.2
  exact Nat.le_max_left _ _

theorem partBytes_pos (h : multipartUploadPartBytes len = .ok partBytes) : 0 < partBytes :=
  Nat.lt_of_lt_of_le (by decide) (partSize_le h)

/-- The first parts tile what is before the next. -/
theorem tiles_firstParts (hpos : 0 < partBytes) (count : Nat) (hcount : count ≤ divCeil len partBytes) :
    Tiles 0 (min (count * partBytes) len) ((List.range count).map (partRange len partBytes)) := by
  induction count with
  | zero =>
      rw [Nat.zero_mul, Nat.zero_min]
      exact rfl
  | succ count ih =>
      have hle := Nat.le_of_lt (mul_lt_of_lt_divCeil hpos hcount)
      have hend : count * partBytes + min (len - count * partBytes) partBytes = min ((count + 1) * partBytes) len := by
        rw [Nat.add_mul, Nat.one_mul]
        omega
      rw [List.range_succ, List.map_append, List.map_singleton]
      refine (ih (Nat.le_of_succ_le hcount)).append ?_
      rw [Nat.min_eq_left hle, partRange, hend]
      apply tiles_singleton
      rw [← hend]
      exact Nat.le_add_right _ _

theorem tiles_parts (h : multipartUploadPartBytes len = .ok partBytes) :
    Tiles 0 len ((List.range (divCeil len partBytes)).map (partRange len partBytes)) := by
  have htiles := @tiles_firstParts len partBytes (partBytes_pos h) _ (Nat.le_refl _)
  have hall : len ≤ divCeil len partBytes * partBytes :=
    divCeil_le.resolve_right (Nat.ne_of_gt (partBytes_pos h))
  rwa [Nat.min_eq_right hall] at htiles

/-- What is sent under a number. -/
def partBody (data : Bytes) (partBytes number : Nat) : Bytes :=
  fileRange data (partRange data.length partBytes (number - 1))

def numbers (len partBytes : Nat) : List Nat := (List.range (divCeil len partBytes)).map (· + 1)

theorem flatMap_partBody (h : multipartUploadPartBytes data.length = .ok partBytes) :
    (numbers data.length partBytes).flatMap (partBody data partBytes) = data := by
  calc (numbers data.length partBytes).flatMap (partBody data partBytes)
      _ = ((List.range (divCeil data.length partBytes)).map (partRange data.length partBytes)).flatMap
            fun range => slice data range.1 range.2 := by
          rw [numbers, List.flatMap_map, List.flatMap_map]
          rfl
      _ = slice data 0 data.length := (tiles_parts h).flatMap_slice
      _ = data := slice_all rfl

theorem ascending_numbers : (numbers len partBytes).Pairwise (· < ·) :=
  List.pairwise_map.mpr (List.pairwise_lt_range.imp Nat.succ_lt_succ)

/-- Parts that are sorted are in order. -/
theorem sorted_parts {completed : List (Nat × String)}
    (hperm : (completed.map Prod.fst).Perm (numbers len partBytes)) :
    (completed.mergeSort partLe).map Prod.fst = numbers len partBytes := by
  have htrans : ∀ a b c : Nat × String, partLe a b = true → partLe b c = true → partLe a c = true :=
    fun a b c hab hbc => decide_eq_true (Nat.le_trans (of_decide_eq_true hab) (of_decide_eq_true hbc))
  have htotal : ∀ a b : Nat × String, (partLe a b || partLe b a) = true := by
    intro a b
    rcases Nat.le_total a.1 b.1 with h | h
    · exact Bool.or_eq_true_iff.mpr (.inl (decide_eq_true h))
    · exact Bool.or_eq_true_iff.mpr (.inr (decide_eq_true h))
  have hsorted := List.pairwise_mergeSort htrans htotal completed
  have hle : ((completed.mergeSort partLe).map Prod.fst).Pairwise (· ≤ ·) :=
    List.pairwise_map.mpr (hsorted.imp of_decide_eq_true)
  have hperm' := ((List.mergeSort_perm completed partLe).map Prod.fst).trans hperm
  exact hperm'.eq_of_pairwise (fun _ _ _ _ hab hba => Nat.le_antisymm hab hba) hle
    (ascending_numbers.imp Nat.le_of_lt)

theorem partNumber_eq_some {index number : Nat} (h : partNumber index = some number) : number = index + 1 := by
  unfold partNumber at h
  split at h
  · exact (Option.some.inj h).symm
  · cases h

end Parts

/-! ## What holds of the bucket -/

section Sound

variable (pfx : String) (etag sha256 : Bytes → String)

/-- Multipart upload `id` was started for a file, in parts of so many bytes. -/
structure StartedFor (started : List (String × Bytes)) (id : Nat) (hash : String) (data : Bytes)
    (partBytes : Nat) : Prop where
  started : started[id]? = some (hash, data)
  hashed : sha256 data = hash
  partBytes : multipartUploadPartBytes data.length = .ok partBytes

/-- Every object is what its name says, and every part a slice of the upload's file. -/
structure Bucket.Sound (started : List (String × Bytes)) (bucket : Bucket) : Prop where
  objects : ∀ hash data, bucket.objects (key pfx hash) = some data → sha256 data = hash
  multiparts : ∀ id multipart, bucket.multiparts id = some multipart → ∃ hash data partBytes,
    StartedFor sha256 started id hash data partBytes ∧ multipart.key = key pfx hash ∧
      ∀ number body, multipart.parts number = some body → body = partBody data partBytes number

/-- A request that keeps the bucket sound. -/
def Request.Fits (started : List (String × Bytes)) : Request → Prop
  | .put name body => ∃ hash, name = key pfx hash ∧ sha256 body = hash
  | .uploadPart id number body => ∃ hash data partBytes,
    StartedFor sha256 started id hash data partBytes ∧ body = partBody data partBytes number
  | .complete id listed => ∃ hash data partBytes,
    StartedFor sha256 started id hash data partBytes ∧ listed.map Prod.fst = numbers data.length partBytes
  | .abort _ => True

variable {pfx etag sha256} {started : List (String × Bytes)} {bucket : Bucket} {request : Request}

theorem key_inj {a b : String} (h : key pfx a = key pfx b) : a = b := (String.append_right_inj pfx).mp h

theorem StartedFor.append {id : Nat} {hash : String} {data : Bytes} {partBytes : Nat}
    (h : StartedFor sha256 started id hash data partBytes) (more : List (String × Bytes)) :
    StartedFor sha256 (started ++ more) id hash data partBytes := by
  refine ⟨?_, h.hashed, h.partBytes⟩
  rw [List.getElem?_append_left (List.getElem?_eq_some_iff.mp h.started).1]
  exact h.started

/-- A multipart upload is for one file. -/
theorem StartedFor.unique {id : Nat} {hash hash' : String} {data data' : Bytes} {partBytes partBytes' : Nat}
    (h : StartedFor sha256 started id hash data partBytes)
    (h' : StartedFor sha256 started id hash' data' partBytes') :
    hash = hash' ∧ data = data' ∧ partBytes = partBytes' := by
  obtain ⟨rfl, rfl⟩ := Prod.mk.inj (Option.some.inj (h.started.symm.trans h'.started))
  exact ⟨rfl, rfl, Except.ok.inj (h.partBytes.symm.trans h'.partBytes)⟩

theorem Request.Fits.append (h : request.Fits pfx sha256 started) (more : List (String × Bytes)) :
    request.Fits pfx sha256 (started ++ more) := by
  cases request with
  | put name body => exact h
  | uploadPart id number body =>
      obtain ⟨hash, data, partBytes, hfor, hbody⟩ := h
      exact ⟨hash, data, partBytes, hfor.append more, hbody⟩
  | complete id listed =>
      obtain ⟨hash, data, partBytes, hfor, hlisted⟩ := h
      exact ⟨hash, data, partBytes, hfor.append more, hlisted⟩
  | abort id => trivial

theorem Bucket.Sound.append (h : bucket.Sound pfx sha256 started) (more : List (String × Bytes)) :
    bucket.Sound pfx sha256 (started ++ more) := by
  refine ⟨h.objects, fun id multipart hmultipart => ?_⟩
  obtain ⟨hash, data, partBytes, hfor, hrest⟩ := h.multiparts id multipart hmultipart
  exact ⟨hash, data, partBytes, hfor.append more, hrest⟩

/-- An object is stored under the name that is its hash. -/
theorem Bucket.Sound.store (h : bucket.Sound pfx sha256 started) {hash : String} {body : Bytes}
    (hbody : sha256 body = hash) :
    Bucket.Sound pfx sha256 started
      { bucket with objects := Function.update bucket.objects (key pfx hash) (some body) } := by
  refine ⟨fun other data hdata => ?_, h.multiparts⟩
  dsimp only at hdata
  by_cases hother : key pfx other = key pfx hash
  · rw [hother, Function.update_self] at hdata
    rw [← Option.some.inj hdata, hbody, key_inj hother]
  · rw [Function.update_of_ne hother] at hdata
    exact h.objects other data hdata

theorem Bucket.Sound.drop (h : bucket.Sound pfx sha256 started) (id : Nat) :
    Bucket.Sound pfx sha256 started
      { bucket with multiparts := Function.update bucket.multiparts id none } := by
  refine ⟨h.objects, fun other multipart hmultipart => h.multiparts other multipart ?_⟩
  dsimp only at hmultipart
  by_cases hother : other = id
  · rw [hother, Function.update_self] at hmultipart
    cases hmultipart
  · rwa [Function.update_of_ne hother] at hmultipart

/-- All parts, in order, are the file. -/
theorem assemble_eq {multipart : Multipart} {data : Bytes} {partBytes : Nat} {listed : List (Nat × String)}
    {object : Bytes} (hpart : multipartUploadPartBytes data.length = .ok partBytes)
    (hparts : ∀ number body, multipart.parts number = some body → body = partBody data partBytes number)
    (hlisted : listed.map Prod.fst = numbers data.length partBytes)
    (h : multipart.assemble etag listed = some object) : object = data := by
  unfold Multipart.assemble at h
  split at h
  · next hall =>
      have hbody : ∀ part ∈ listed, (multipart.part etag part).getD [] = partBody data partBytes part.1 := by
        intro part hpart
        obtain ⟨body, hbody⟩ := Option.ne_none_iff_exists'.mp (hall.2.2 part hpart)
        rw [hbody, Option.getD_some]
        exact hparts part.1 body (Option.filter_eq_some_iff.mp hbody).1
      calc object
          _ = listed.flatMap fun part => (multipart.part etag part).getD [] := (Option.some.inj h).symm
          _ = listed.flatMap fun part => partBody data partBytes part.1 := List.flatMap_congr hbody
          _ = (listed.map Prod.fst).flatMap (partBody data partBytes) := by rw [List.flatMap_map]
          _ = data := by rw [hlisted, flatMap_partBody hpart]
  · cases h

variable (etag) in
/-- Whatever fits keeps the bucket sound, and no object is lost. -/
theorem exec_sound (h : bucket.Sound pfx sha256 started) (hfits : request.Fits pfx sha256 started) :
    (bucket.exec etag request).Sound pfx sha256 started ∧
      ∀ name, bucket.objects name ≠ none → (bucket.exec etag request).objects name ≠ none := by
  have hset {objects : String → Option Bytes} {name : String} {body : Bytes} (other : String)
      (hother : objects other ≠ none) : Function.update objects name (some body) other ≠ none := by
    by_cases heq : other = name
    · rw [heq, Function.update_self]
      exact Option.some_ne_none body
    · rwa [Function.update_of_ne heq]
  cases request with
  | put name body =>
      obtain ⟨hash, rfl, hbody⟩ := hfits
      exact ⟨h.store hbody, hset⟩
  | uploadPart id number body =>
      obtain ⟨hash, data, partBytes, hfor, rfl⟩ := hfits
      rw [Bucket.exec]
      split
      · exact ⟨h, fun _ hobject => hobject⟩
      · next multipart hmultipart =>
          refine ⟨⟨h.objects, fun other found hfound => ?_⟩, fun _ hobject => hobject⟩
          dsimp only at hfound
          by_cases hother : other = id
          · subst hother
            rw [Function.update_self] at hfound
            obtain rfl := Option.some.inj hfound
            obtain ⟨hash', data', partBytes', hfor', hkey, hparts⟩ := h.multiparts other multipart hmultipart
            obtain ⟨rfl, rfl, rfl⟩ := hfor.unique hfor'
            refine ⟨hash, data, partBytes, hfor, hkey, fun number' body hbody => ?_⟩
            dsimp only at hbody
            by_cases hnumber : number' = number
            · rw [hnumber, Function.update_self] at hbody
              rw [hnumber]
              exact (Option.some.inj hbody).symm
            · rw [Function.update_of_ne hnumber] at hbody
              exact hparts number' body hbody
          · rw [Function.update_of_ne hother] at hfound
            exact h.multiparts other found hfound
  | complete id listed =>
      obtain ⟨hash, data, partBytes, hfor, hlisted⟩ := hfits
      rw [Bucket.exec]
      split
      · exact ⟨h, fun _ hobject => hobject⟩
      · next multipart hmultipart =>
          split
          · exact ⟨h, fun _ hobject => hobject⟩
          · next object hobject =>
              obtain ⟨hash', data', partBytes', hfor', hkey, hparts⟩ := h.multiparts id multipart hmultipart
              obtain ⟨rfl, rfl, rfl⟩ := hfor.unique hfor'
              obtain rfl := assemble_eq hfor.partBytes hparts hlisted hobject
              rw [hkey]
              exact ⟨(h.drop id).store hfor.hashed, hset⟩
  | abort id => exact ⟨h.drop id, fun _ hobject => hobject⟩

variable (etag) in
/-- An answer says that the object is there. -/
theorem exec_put (name : String) (body : Bytes) : (bucket.exec etag (.put name body)).objects name ≠ none := by
  show Function.update bucket.objects name (some body) name ≠ none
  rw [Function.update_self]
  exact Option.some_ne_none body

theorem exec_complete (h : bucket.Sound pfx sha256 started) {id : Nat} {listed : List (Nat × String)}
    {hash : String} {data : Bytes} {partBytes : Nat} (hfor : StartedFor sha256 started id hash data partBytes)
    (haccepts : bucket.Accepts etag (.complete id listed)) :
    (bucket.exec etag (.complete id listed)).objects (key pfx hash) ≠ none := by
  obtain ⟨multipart, hmultipart, hassembled⟩ := haccepts
  obtain ⟨object, hobject⟩ := Option.ne_none_iff_exists'.mp hassembled
  obtain ⟨hash', data', partBytes', hfor', hkey, _⟩ := h.multiparts id multipart hmultipart
  obtain ⟨rfl, rfl, rfl⟩ := hfor.unique hfor'
  simp only [Bucket.exec, hmultipart, hobject, hkey]
  rw [Function.update_self]
  exact Option.some_ne_none object

end Sound

/-! ## What holds of an upload -/

section Fits

variable (pfx : String) (etag sha256 : Bytes → String)

/-- What an upload relies on. While its parts are sent, each of them is waiting, on its way or sent. -/
def Phase.Fits (started : List (String × Bytes)) (objects : String → Option Bytes) (hash : String) (data : Bytes)
    (released : Bool) : Phase → Prop
  | .create partBytes => multipartUploadPartBytes data.length = .ok partBytes
  | .parts id partBytes waiting active completed =>
    StartedFor sha256 started id hash data partBytes ∧
      (waiting.map (· + 1) ++ active.map (fun part : Nat × Tries => part.1 + 1) ++ completed.map Prod.fst).Perm
        (numbers data.length partBytes) ∧
      ∀ part ∈ active, (partNumber part.1).isSome
  | .complete id listed => ∃ partBytes,
    StartedFor sha256 started id hash data partBytes ∧ listed.map Prod.fst = numbers data.length partBytes
  | .done true => released = false → objects (key pfx hash) ≠ none
  | _ => True

def Task.Fits (started : List (String × Bytes)) (objects : String → Option Bytes) (task : Task) : Prop :=
  sha256 task.data = task.hash ∧ task.phase.Fits pfx sha256 started objects task.hash task.data task.released

structure Uploading.Sound (s : Uploading) : Prop where
  bucket : s.bucket.Sound pfx sha256 s.started
  wire : ∀ request ∈ s.wire, request.Fits pfx sha256 s.started
  tasks : ∀ task ∈ s.tasks, task.Fits pfx sha256 s.started s.bucket.objects

variable {pfx etag sha256} {started : List (String × Bytes)} {objects objects' : String → Option Bytes}
  {hash : String} {data : Bytes} {released : Bool} {phase : Phase}

/-- Only an upload that ended with success says something of the objects. -/
theorem Phase.Fits.change {released' : Bool} (h : phase.Fits pfx sha256 started objects hash data released)
    (hdone : phase = .done true → released' = false → objects' (key pfx hash) ≠ none) :
    phase.Fits pfx sha256 started objects' hash data released' := by
  cases phase with
  | done ok =>
      cases ok with
      | true => exact hdone rfl
      | false => exact h
  | stat => exact h
  | head => exact h
  | put tries => exact h
  | create partBytes => exact h
  | parts id partBytes waiting active completed => exact h
  | complete id listed => exact h
  | abort id => exact h

theorem Phase.Fits.append (h : phase.Fits pfx sha256 started objects hash data released)
    (more : List (String × Bytes)) : phase.Fits pfx sha256 (started ++ more) objects hash data released := by
  cases phase with
  | parts id partBytes waiting active completed => exact ⟨h.1.append more, h.2⟩
  | complete id listed =>
      obtain ⟨partBytes, hfor, hlisted⟩ := h
      exact ⟨partBytes, hfor.append more, hlisted⟩
  | done ok => cases ok <;> exact h
  | stat => exact h
  | head => exact h
  | put tries => exact h
  | create partBytes => exact h
  | abort id => exact h

theorem Task.Fits.mono {task : Task} (h : task.Fits pfx sha256 started objects)
    (hobjects : ∀ name, objects name ≠ none → objects' name ≠ none) (more : List (String × Bytes)) :
    task.Fits pfx sha256 (started ++ more) objects' := by
  refine ⟨h.1, (h.2.change fun hdone hreleased => hobjects _ ?_).append more⟩
  have hfits := h.2
  rw [hdone] at hfits
  exact hfits hreleased

theorem fits_send : (send data.length).Fits pfx sha256 started objects hash data released := by
  unfold send
  split
  · split
    · exact trivial
    · next partBytes hpart => exact hpart
  · exact trivial

theorem fits_afterStat : (afterStat data.length).Fits pfx sha256 started objects hash data released := by
  unfold afterStat
  split
  · exact trivial
  · exact fits_send

theorem fileRange_all (data : Bytes) : fileRange data (0, data.length) = data := slice_all rfl

/-- What an upload sends fits. -/
theorem Task.OnWay.fits {request : Request} (h : Task.OnWay pfx hash data phase request)
    (hhash : sha256 data = hash) (hfits : phase.Fits pfx sha256 started objects hash data released) :
    request.Fits pfx sha256 started := by
  cases h with
  | put => exact ⟨hash, rfl, (congrArg sha256 (fileRange_all data)).trans hhash⟩
  | @part id partBytes index number tries waiting active completed hactive hnumber =>
      obtain rfl := partNumber_eq_some hnumber
      exact ⟨hash, data, partBytes, hfits.1, rfl⟩
  | complete =>
      obtain ⟨partBytes, hfor, hlisted⟩ := hfits
      exact ⟨hash, data, partBytes, hfor, hlisted⟩
  | abort => exact trivial

section Parts

variable {id partBytes : Nat} {waiting : List Nat} {active : List (Nat × Tries)} {completed : List (Nat × String)}
  {index : Nat} {tries tries' : Tries}

theorem perm_erase (hactive : (index, tries) ∈ active) :
    (active.map fun part => part.1 + 1).Perm
      ((index + 1) :: (active.erase (index, tries)).map fun part => part.1 + 1) :=
  (List.perm_cons_erase hactive).map fun part => part.1 + 1

theorem fits_start
    (h : (Phase.parts id partBytes (index :: waiting) active completed).Fits pfx sha256 started objects hash data
      released) (hnumber : (partNumber index).isSome = true) :
    (Phase.parts id partBytes waiting (active ++ [(index, ⟨0, 0⟩)]) completed).Fits pfx sha256 started objects hash
      data released := by
  obtain ⟨hfor, hperm, hactive⟩ := h
  refine ⟨hfor, List.Perm.trans ?_ hperm, fun part hpart => ?_⟩
  · apply List.perm_iff_count.mpr
    intro number
    simp only [List.map_append, List.map_cons, List.map_nil, List.count_append, List.count_cons, List.count_nil]
    omega
  · rcases List.mem_append.mp hpart with hpart | hpart
    · exact hactive part hpart
    · obtain rfl := List.mem_singleton.mp hpart
      exact hnumber

theorem fits_part
    (h : (Phase.parts id partBytes waiting active completed).Fits pfx sha256 started objects hash data released)
    (hactive : (index, tries) ∈ active) (tag : String) :
    (Phase.parts id partBytes waiting (active.erase (index, tries)) (completed ++ [(index + 1, tag)])).Fits pfx sha256
      started objects hash data released := by
  obtain ⟨hfor, hperm, hnumbers⟩ := h
  refine ⟨hfor, List.Perm.trans ?_ hperm, fun part hpart => hnumbers part (List.mem_of_mem_erase hpart)⟩
  apply List.perm_iff_count.mpr
  intro number
  have hcount := (perm_erase hactive).count_eq number
  simp only [List.map_append, List.map_cons, List.map_nil, List.count_append, List.count_cons, List.count_nil]
    at hcount ⊢
  omega

theorem fits_partFailed
    (h : (Phase.parts id partBytes waiting active completed).Fits pfx sha256 started objects hash data released)
    (hactive : (index, tries) ∈ active) :
    (Phase.parts id partBytes waiting ((index, tries') :: active.erase (index, tries)) completed).Fits pfx sha256
      started objects hash data released := by
  obtain ⟨hfor, hperm, hnumbers⟩ := h
  refine ⟨hfor, List.Perm.trans ?_ hperm, fun part hpart => ?_⟩
  · apply List.perm_iff_count.mpr
    intro number
    have hcount := (perm_erase hactive).count_eq number
    simp only [List.map_cons, List.count_append, List.count_cons] at hcount ⊢
    omega
  · rcases List.mem_cons.mp hpart with rfl | hpart
    · exact hnumbers (index, tries) hactive
    · exact hnumbers part (List.mem_of_mem_erase hpart)

theorem fits_sent
    (h : (Phase.parts id partBytes [] [] completed).Fits pfx sha256 started objects hash data released) :
    (Phase.complete id (completed.mergeSort partLe)).Fits pfx sha256 started objects hash data released := by
  obtain ⟨hfor, hperm, _⟩ := h
  exact ⟨partBytes, hfor, sorted_parts hperm⟩

end Parts

/-- After a PUT failed, it is sent again or given up. -/
theorem fits_elim {tries : Option Tries} {again : Tries → Phase} {last : Phase}
    (hagain : ∀ tries', (again tries').Fits pfx sha256 started objects hash data released)
    (hlast : last.Fits pfx sha256 started objects hash data released) :
    (tries.elim last again).Fits pfx sha256 started objects hash data released := by
  cases tries with
  | none => exact hlast
  | some tries' => exact hagain tries'

end Fits

/-! ## Every step keeps it -/

section Steps

variable {pfx : String} {etag sha256 : Bytes → String} {s s' : Uploading} {t : Nat} {task : Task}

/-- One upload goes on, and the bucket has no object less. -/
theorem Uploading.Sound.set (h : s.Sound pfx sha256) (t : Nat) {s' : Uploading} (task' : Task)
    (hstarted : ∃ more, s'.started = s.started ++ more) (hbucket : s'.bucket.Sound pfx sha256 s'.started)
    (hobjects : ∀ name, s.bucket.objects name ≠ none → s'.bucket.objects name ≠ none)
    (hwire : ∀ request ∈ s'.wire, request.Fits pfx sha256 s'.started)
    (htasks : s'.tasks = s.tasks.set t task') (htask : task'.Fits pfx sha256 s'.started s'.bucket.objects) :
    s'.Sound pfx sha256 := by
  refine ⟨hbucket, hwire, fun other hother => ?_⟩
  rw [htasks] at hother
  rcases List.mem_or_eq_of_mem_set hother with hother | rfl
  · obtain ⟨more, hmore⟩ := hstarted
    rw [hmore]
    exact (h.tasks other hother).mono hobjects more
  · exact htask

variable (etag) in
/-- An upload sends nothing. -/
theorem Uploading.Sound.nothing (h : s.Sound pfx sha256) (htask : s.tasks[t]? = some task) {phase : Phase}
    (hphase : phase.Fits pfx sha256 s.started s.bucket.objects task.hash task.data task.released) :
    (s.sent pfx etag t task .nothing phase).Sound pfx sha256 :=
  h.set t { task with phase } ⟨[], (List.append_nil _).symm⟩ h.bucket (fun _ hobject => hobject) h.wire rfl
    ⟨(h.tasks task (List.mem_of_getElem? htask)).1, hphase⟩

/-- An upload sends a request, which the bucket does if it answers it. -/
theorem Uploading.Sound.request (h : s.Sound pfx sha256) (htask : s.tasks[t]? = some task) {phase : Phase}
    {request : Request} {answered : Bool} (hrequest : request.Fits pfx sha256 s.started)
    (hphase : phase.Fits pfx sha256 s.started
      (if answered then s.bucket.exec etag request else s.bucket).objects task.hash task.data task.released) :
    (s.sent pfx etag t task (.request request answered) phase).Sound pfx sha256 := by
  have hexec := exec_sound etag h.bucket hrequest
  refine h.set t { task with phase } ⟨[], (List.append_nil _).symm⟩ ?_ ?_ ?_ rfl
    ⟨(h.tasks task (List.mem_of_getElem? htask)).1, hphase⟩
  · cases answered with
    | true => exact hexec.1
    | false => exact h.bucket
  · cases answered with
    | true => exact hexec.2
    | false => exact fun _ hobject => hobject
  · intro other hother
    rcases List.mem_cons.mp hother with rfl | hother
    · exact hrequest
    · exact h.wire other hother

/-- An upload starts a multipart upload. -/
theorem Uploading.Sound.create (h : s.Sound pfx sha256) (htask : s.tasks[t]? = some task) {phase : Phase}
    {partBytes : Nat} (hpart : multipartUploadPartBytes task.data.length = .ok partBytes)
    (hphase : phase.Fits pfx sha256 (s.started ++ [(task.hash, task.data)]) s.bucket.objects task.hash task.data
      task.released) :
    (s.sent pfx etag t task .create phase).Sound pfx sha256 := by
  have hhash := (h.tasks task (List.mem_of_getElem? htask)).1
  refine h.set t { task with phase } ⟨[(task.hash, task.data)], rfl⟩ ?_ (fun _ hobject => hobject)
    (fun other hother => (h.wire other hother).append _) rfl ⟨hhash, hphase⟩
  refine ⟨h.bucket.objects, fun id multipart hmultipart => ?_⟩
  dsimp only [Uploading.sent] at hmultipart ⊢
  by_cases hid : id = s.started.length
  · subst hid
    rw [Function.update_self] at hmultipart
    obtain rfl := Option.some.inj hmultipart
    exact ⟨task.hash, task.data, partBytes, ⟨List.getElem?_concat_length, hhash, hpart⟩, rfl,
      fun _ _ hbody => by cases hbody⟩
  · rw [Function.update_of_ne hid] at hmultipart
    exact (h.bucket.append _).multiparts id multipart hmultipart

/-- An upload's own step keeps everything sound. -/
theorem sound_sent (h : s.Sound pfx sha256) (htask : s.tasks[t]? = some task) {sends : Sends} {phase : Phase}
    (hstep : Task.Step pfx etag s.bucket s.started.length task.hash task.data task.phase sends phase)
    (hpossible : s.Possible etag sends) : (s.sent pfx etag t task sends phase).Sound pfx sha256 := by
  obtain ⟨hhash, hfits⟩ := h.tasks task (List.mem_of_getElem? htask)
  have hput : Request.Fits pfx sha256 s.started (.put (key pfx task.hash) (fileRange task.data (0, task.data.length))) :=
    ⟨task.hash, rfl, (congrArg sha256 (fileRange_all task.data)).trans hhash⟩
  -- What is sent fits the file by the phase the upload is in, and so does what it goes on to.
  generalize hbefore : task.phase = before at hstep hfits
  cases hstep with
  | stat ok =>
      cases ok with
      | true => exact h.nothing etag htask fits_afterStat
      | false => exact h.nothing etag htask trivial
  | head found hfound =>
      cases found with
      | true =>
          refine h.nothing etag htask fun _ => ?_
          obtain ⟨object, hobject, _⟩ := hfound rfl
          rw [hobject]
          exact Option.some_ne_none object
      | false => exact h.nothing etag htask fits_send
  | put => exact h.request htask hput fun _ => exec_put etag _ _
  | putFailed error => exact h.request htask hput (fits_elim (fun _ => trivial) trivial)
  | create =>
      have hfor : StartedFor sha256 (s.started ++ [(task.hash, task.data)]) s.started.length task.hash task.data _ :=
        ⟨List.getElem?_concat_length, hhash, hfits⟩
      refine h.create htask hfits ⟨hfor, ?_, fun _ hpart => by cases hpart⟩
      rw [List.map_nil, List.map_nil, List.append_nil, List.append_nil]
      exact List.Perm.refl _
  | createFailed => exact h.create htask hfits trivial
  | start hroom =>
      refine h.nothing etag htask ?_
      split
      · next hnumber => exact fits_start hfits hnumber
      · exact trivial
  | @part id partBytes index number tries waiting active completed tagged hactive hnumber body hbody =>
      obtain rfl := partNumber_eq_some hnumber
      refine h.request htask ⟨task.hash, task.data, partBytes, hfits.1, hbody⟩ ?_
      cases tagged with
      | true => exact fits_part hfits hactive _
      | false => exact trivial
  | @partFailed id partBytes index number tries waiting active completed error hactive hnumber body hbody =>
      obtain rfl := partNumber_eq_some hnumber
      refine h.request htask ⟨task.hash, task.data, partBytes, hfits.1, hbody⟩ ?_
      exact fits_elim (fun _ => fits_partFailed hfits hactive) trivial
  | sent => exact h.nothing etag htask (fits_sent hfits)
  | @complete id listed =>
      obtain ⟨partBytes, hfor, hlisted⟩ := hfits
      refine h.request htask ⟨task.hash, task.data, partBytes, hfor, hlisted⟩ fun _ => ?_
      exact exec_complete h.bucket hfor hpossible
  | completeFailed =>
      obtain ⟨partBytes, hfor, hlisted⟩ := hfits
      exact h.request htask ⟨task.hash, task.data, partBytes, hfor, hlisted⟩ trivial
  | abort answered => exact h.request htask trivial trivial

theorem sound_empty : Uploading.empty.Sound pfx sha256 := by
  refine ⟨⟨?_, ?_⟩, ?_, ?_⟩
  · intro _ _ hobject
    cases hobject
  · intro _ _ hmultipart
    cases hmultipart
  · intro _ hrequest
    cases hrequest
  · intro _ htask
    cases htask

theorem sound_step {event : Event} (h : s.Sound pfx sha256) (hstep : Uploading.Step pfx etag sha256 s event s') :
    s'.Sound pfx sha256 := by
  cases hstep with
  | upload hhash =>
      refine ⟨h.bucket, h.wire, fun task htask => ?_⟩
      rcases List.mem_append.mp htask with htask | htask
      · exact h.tasks task htask
      · obtain rfl := List.mem_singleton.mp htask
        refine ⟨hhash, ?_⟩
        dsimp only
        split <;> exact trivial
  | send htask hrequest =>
      obtain ⟨hhash, hfits⟩ := h.tasks _ (List.mem_of_getElem? htask)
      refine ⟨h.bucket, fun other hother => ?_, h.tasks⟩
      rcases List.mem_cons.mp hother with rfl | hother
      · exact hrequest.fits hhash hfits
      · exact h.wire other hother
  | step htask hstep hpossible => exact sound_sent h htask hstep hpossible
  | @cancel t task htask => exact h.nothing etag htask trivial
  | @release t task htask =>
      obtain ⟨hhash, hfits⟩ := h.tasks task (List.mem_of_getElem? htask)
      refine h.set t { task with released := true } ⟨[], (List.append_nil _).symm⟩ h.bucket
        (fun _ hobject => hobject) h.wire rfl ⟨hhash, hfits.change fun _ hreleased => by cases hreleased⟩
  | @deliver request hsent =>
      obtain ⟨hbucket, hobjects⟩ := exec_sound etag h.bucket (h.wire request hsent)
      refine ⟨hbucket, h.wire, fun task htask => ?_⟩
      have hmono := (h.tasks task htask).mono hobjects []
      rwa [List.append_nil] at hmono
  | @delete hash hunpinned =>
      refine ⟨⟨fun other data hdata => ?_, h.bucket.multiparts⟩, h.wire, fun task htask => ?_⟩
      · dsimp only at hdata
        by_cases hother : key pfx other = key pfx hash
        · rw [hother, Function.update_self] at hdata
          cases hdata
        · rw [Function.update_of_ne hother] at hdata
          exact h.bucket.objects other data hdata
      · obtain ⟨hhash, hfits⟩ := h.tasks task htask
        refine ⟨hhash, hfits.change fun hdone hreleased => ?_⟩
        have hother : key pfx task.hash ≠ key pfx hash := by
          intro hkey
          rw [hunpinned task htask (key_inj hkey)] at hreleased
          cases hreleased
        rw [hdone] at hfits
        dsimp only
        rw [Function.update_of_ne hother]
        exact hfits hreleased

end Steps

/-! ## Every upload ends -/

section Ends

def Tries.left (tries : Tries) : Nat :=
  1 + (streamPutAttempts - tries.failures) + (throttledPutAttempts - tries.throttles)

/-- The most steps that are left of an upload that is sending. -/
def Phase.sending (len : Nat) : Phase → Nat
  | .put tries => tries.left
  | .create partBytes => 4 + 13 * divCeil len partBytes
  | .parts _ _ waiting active _ => 3 + 13 * waiting.length + (active.map fun part => part.2.left).sum
  | .complete _ _ => 2
  | .abort _ => 1
  | _ => 0

/-- The most steps that are left of an upload. -/
def Phase.left (len : Nat) : Phase → Nat
  | .stat => 2 + (send len).sending len
  | .head => 1 + (send len).sending len
  | phase => phase.sending len

variable {pfx : String} {etag sha256 : Bytes → String} {s s' : Uploading} {len t : Nat}

theorem left_send : (send len).left len = (send len).sending len := by
  unfold send
  split
  · split <;> rfl
  · rfl

/-- A PUT that is sent again has fewer tries left. -/
theorem Tries.failed_lt {tries tries' : Tries} {error : PutError} (h : tries.failed error = some tries') :
    tries'.left < tries.left := by
  unfold Tries.failed at h
  cases error with
  | throttled =>
      dsimp only at h
      split at h
      · cases h
      · obtain rfl := Option.some.inj h
        simp only [Tries.left]
        omega
  | other =>
      dsimp only at h
      split at h
      · cases h
      · obtain rfl := Option.some.inj h
        simp only [Tries.left]
        omega

theorem Tries.left_pos (tries : Tries) : 0 < tries.left := by
  unfold Tries.left
  omega

theorem sum_erase {active : List (Nat × Tries)} {part : Nat × Tries} (hactive : part ∈ active) :
    (active.map fun part => part.2.left).sum =
      part.2.left + ((active.erase part).map fun part => part.2.left).sum := by
  have hperm := (List.perm_cons_erase hactive).map fun part : Nat × Tries => part.2.left
  rw [hperm.sum_nat, List.map_cons, List.sum_cons]

theorem Task.Step.left_lt {bucket : Bucket} {fresh : Nat} {hash : String} {data : Bytes} {phase phase' : Phase}
    {sends : Sends} (h : Task.Step pfx etag bucket fresh hash data phase sends phase') :
    phase'.left data.length < phase.left data.length := by
  cases h with
  | stat ok =>
      cases ok with
      | true =>
          show (afterStat data.length).left data.length < 2 + (send data.length).sending data.length
          unfold afterStat
          split
          · exact Nat.add_lt_add_right (by decide) _
          · rw [left_send]
            omega
      | false => exact Nat.lt_of_lt_of_le Nat.zero_lt_two (Nat.le_add_right 2 _)
  | head found =>
      cases found with
      | true => exact Nat.lt_of_lt_of_le Nat.zero_lt_one (Nat.le_add_right 1 _)
      | false =>
          show (send data.length).left data.length < 1 + (send data.length).sending data.length
          rw [left_send]
          omega
  | put => exact Tries.left_pos _
  | @putFailed tries error =>
      cases htries : tries.failed error with
      | none => exact Tries.left_pos _
      | some tries' => exact Tries.failed_lt htries
  | create =>
      show 3 + 13 * (List.range _).length + 0 < 4 + 13 * _
      rw [List.length_range]
      omega
  | createFailed => exact Nat.lt_of_lt_of_le (Nat.succ_pos 3) (Nat.le_add_right 4 _)
  | @start id partBytes index waiting active completed hroom =>
      split
      · simp only [Phase.left, Phase.sending, List.length_cons, List.map_append, List.sum_append, List.map_cons,
          List.map_nil, List.sum_cons, List.sum_nil]
        -- A part that is started has all its tries, one fewer than it counted for before.
        have hnew : Tries.left ⟨0, 0⟩ = 12 := rfl
        omega
      · simp only [Phase.left, Phase.sending]
        omega
  | @part id partBytes index number tries waiting active completed tagged hactive hnumber body hbody =>
      have hpos := tries.left_pos
      have hsum := sum_erase hactive
      dsimp only at hsum
      -- A part that is sent takes its tries with it.
      cases tagged with
      | true =>
          simp only [if_true, Phase.left, Phase.sending]
          omega
      | false =>
          simp only [Bool.false_eq_true, if_false, Phase.left, Phase.sending]
          omega
  | @partFailed id partBytes index number tries waiting active completed error hactive hnumber body hbody =>
      have hsum := sum_erase hactive
      dsimp only at hsum
      cases htries : tries.failed error with
      | none =>
          simp only [Option.elim_none, Phase.left, Phase.sending]
          omega
      | some tries' =>
          have hless := Tries.failed_lt htries
          simp only [Option.elim_some, Phase.left, Phase.sending, List.map_cons, List.sum_cons]
          omega
  | sent => exact Nat.lt_succ_self 2
  | complete => exact Nat.zero_lt_two
  | completeFailed => exact Nat.one_lt_two
  | abort answered => exact Nat.zero_lt_one

/-- A small file takes as many steps as one PUT can be sent, and each part of a large one one more. -/
theorem left_stat (len : Nat) : Phase.stat.left len ≤ 14 + 13 * divCeil len multipartUploadPartSize := by
  simp only [Phase.left, send]
  split
  · cases hpart : multipartUploadPartBytes len with
    | error error =>
        show 2 + 0 ≤ _
        omega
    | ok partBytes =>
        have hle : divCeil len partBytes ≤ divCeil len multipartUploadPartSize :=
          divCeil_mono (by decide) (partSize_le hpart)
        show 2 + (4 + 13 * divCeil len partBytes) ≤ _
        omega
  · show 2 + Tries.left ⟨0, 0⟩ ≤ _
    have hnew : Tries.left ⟨0, 0⟩ = 12 := rfl
    omega

/-- Upload `t` made `steps` steps. -/
def StepsTaken (s : Uploading) (t steps : Nat) : Prop :=
  match s.tasks[t]? with
  | some task => steps + task.phase.left task.data.length ≤ Phase.stat.left task.data.length
  | none => steps = 0

theorem StepsTaken.of_eq {steps : Nat} (h : StepsTaken s t steps) (heq : s'.tasks[t]? = s.tasks[t]?) :
    StepsTaken s' t steps := by
  rwa [StepsTaken, heq]

/-- A task that went on, or stayed. -/
theorem StepsTaken.set {steps steps' : Nat} {task : Task} {phase : Phase} {released : Bool}
    (h : StepsTaken s t steps) (htask : s.tasks[t]? = some task)
    (htasks : s'.tasks = s.tasks.set t ⟨task.hash, task.data, phase, released⟩)
    (hphase : steps' + phase.left task.data.length ≤ steps + task.phase.left task.data.length) :
    StepsTaken s' t steps' := by
  rw [StepsTaken, htask] at h
  rw [StepsTaken, htasks, List.getElem?_set_self (List.getElem?_eq_some_iff.mp htask).1]
  exact Nat.le_trans hphase h

theorem count_step {events : List Event} :
    (events ++ [Event.step t]).count (.step t) = events.count (.step t) + 1 := by
  rw [List.count_append, List.count_singleton_self]

theorem count_other {events : List Event} {event : Event} (hne : event ≠ .step t) :
    (events ++ [event]).count (.step t) = events.count (.step t) := by
  rw [List.count_append, List.count_eq_zero_of_not_mem fun hmem => hne (List.mem_singleton.mp hmem).symm,
    Nat.add_zero]

theorem steps_taken {events : List Event} (hrun : Run (Uploading.Step pfx etag sha256) .empty events s) (t : Nat) :
    StepsTaken s t (events.count (.step t)) := by
  refine hrun.invariant_history (I := fun events s => StepsTaken s t (events.count (.step t)))
    (show StepsTaken .empty t 0 from rfl) ?_
  intro events event s s' _ ih hstep
  -- What another upload does leaves this one's steps as they are.
  have hother {other : Nat} {task : Task} (hne : other ≠ t) (htasks : s'.tasks = s.tasks.set other task) :
      StepsTaken s' t (events.count (.step t)) := by
    refine ih.of_eq ?_
    rw [htasks, List.getElem?_set_ne hne]
  cases hstep with
  | @upload hash data hhash =>
      rw [count_other (by simp)]
      by_cases hlt : t < s.tasks.length
      · exact ih.of_eq (List.getElem?_append_left hlt)
      · rw [StepsTaken, List.getElem?_eq_none (Nat.not_lt.mp hlt)] at ih
        rw [ih, StepsTaken, List.getElem?_append_right (Nat.not_lt.mp hlt)]
        cases hidx : t - s.tasks.length with
        | zero =>
            show 0 + (if validateArtifactId hash then Phase.stat else .done false).left data.length ≤ _
            rw [Nat.zero_add]
            split
            · exact Nat.le_refl _
            · exact Nat.zero_le _
        | succ k => rfl
  | send htask hrequest =>
      rw [count_other (by simp)]
      exact ih.of_eq rfl
  | @step other task sends phase htask hstep hpossible =>
      have htasks : (s.sent pfx etag other task sends phase).tasks = s.tasks.set other { task with phase } := by
        cases sends <;> rfl
      by_cases heq : other = t
      · subst heq
        rw [count_step]
        refine ih.set htask htasks ?_
        -- Each own step is paid for by what is left to do.
        have hless := hstep.left_lt
        omega
      · rw [count_other fun h => heq (Event.step.inj h)]
        exact hother heq htasks
  | @cancel other task htask =>
      rw [count_other (by simp)]
      by_cases heq : other = t
      · subst heq
        exact ih.set htask rfl (Nat.add_le_add_left (Nat.zero_le _) _)
      · exact hother heq rfl
  | @release other task htask =>
      rw [count_other (by simp)]
      by_cases heq : other = t
      · subst heq
        exact ih.set htask rfl (Nat.le_refl _)
      · exact hother heq rfl
  | deliver hsent =>
      rw [count_other (by simp)]
      exact ih.of_eq rfl
  | delete hunpinned =>
      rw [count_other (by simp)]
      exact ih.of_eq rfl

theorem Uploading.GoesOn.step {slot : Bool} (h : Uploading.GoesOn pfx etag slot s t s') :
    Uploading.Step pfx etag sha256 s (.step t) s' := by
  obtain ⟨task, sends, phase, htask, hstep, hpossible, -, rfl⟩ := h
  exact .step htask hstep hpossible

/-- An upload that has not ended can go on, with a slot for a PUT if it waits for one. -/
theorem can_step (h : s.Sound pfx sha256) {task : Task} (htask : s.tasks[t]? = some task)
    (hgoing : ∀ ok, task.phase ≠ .done ok) :
    ∃ s', Uploading.GoesOn pfx etag task.phase.awaitsSlot s t s' := by
  suffices hstep : ∃ sends phase, Task.Step pfx etag s.bucket s.started.length task.hash task.data task.phase sends
      phase ∧ s.Possible etag sends ∧ (sends.takesSlot = true → task.phase.awaitsSlot = true) by
    obtain ⟨sends, phase, hstep, hpossible, hslot⟩ := hstep
    exact ⟨_, task, sends, phase, htask, hstep, hpossible, hslot, rfl⟩
  have hfits := (h.tasks task (List.mem_of_getElem? htask)).2
  generalize task.phase = phase at hfits hgoing
  cases phase with
  | stat => exact ⟨_, _, .stat false, trivial, fun hsends => by cases hsends⟩
  | head => exact ⟨_, _, .head false (fun hfound => by cases hfound), trivial, fun hsends => by cases hsends⟩
  | put tries => exact ⟨_, _, .put, trivial, fun _ => rfl⟩
  | create partBytes => exact ⟨_, _, .createFailed, trivial, fun hsends => by cases hsends⟩
  | complete id listed => exact ⟨_, _, .completeFailed, trivial, fun hsends => by cases hsends⟩
  | abort id => exact ⟨_, _, .abort false, trivial, fun hsends => by cases hsends⟩
  | done ok => exact absurd rfl (hgoing ok)
  | parts id partBytes waiting active completed =>
      cases active with
      | nil =>
          cases waiting with
          | nil => exact ⟨_, _, .sent, trivial, fun hsends => by cases hsends⟩
          | cons index rest => exact ⟨_, _, .start (by decide), trivial, fun hsends => by cases hsends⟩
      | cons part rest =>
          by_cases hroom : waiting ≠ [] ∧ (part :: rest).length < multipartUploadMaxConcurrency
          · obtain ⟨index, more, rfl⟩ := List.exists_cons_of_ne_nil hroom.1
            exact ⟨_, _, .start hroom.2, trivial, fun hsends => by cases hsends⟩
          · -- no part can be started, so one that is on its way is to be sent
            have hfull : waiting = [] ∨ multipartUploadMaxConcurrency ≤ (part :: rest).length := by
              rwa [not_and_or, not_not, Nat.not_lt] at hroom
            obtain ⟨number, hnumber⟩ := Option.isSome_iff_exists.mp (hfits.2.2 part List.mem_cons_self)
            refine ⟨_, _, .partFailed .other List.mem_cons_self hnumber rfl, trivial, fun _ => ?_⟩
            simpa [Phase.awaitsSlot] using hfull

end Ends

/-- Whatever uploads do next to one another, and whichever of their requests the bucket does twice, late or
not at all, an object in it is what its name says. The object of an upload that ended with success is there
until its build ends. Every upload takes so many steps at most, and can go on until it ends, with a slot of
the server-wide limit when a PUT is all that it can do. -/
theorem uploads_whole {pfx : String} {etag sha256 : Bytes → String} {events : List Event} {s : Uploading}
    (hrun : Run (Uploading.Step pfx etag sha256) .empty events s) :
    (∀ hash object, s.bucket.objects (key pfx hash) = some object → sha256 object = hash) ∧
    (∀ task ∈ s.tasks, task.phase = .done true → task.released = false →
      ∃ object, s.bucket.objects (key pfx task.hash) = some object) ∧
    ∀ t task, s.tasks[t]? = some task →
      events.count (.step t) ≤ 14 + 13 * divCeil task.data.length multipartUploadPartSize ∧
      ((∀ ok, task.phase ≠ .done ok) → ∃ s', Uploading.GoesOn pfx etag task.phase.awaitsSlot s t s') := by
  have hsound : s.Sound pfx sha256 :=
    hrun.invariant_history (I := fun _ s => s.Sound pfx sha256) sound_empty fun _ h hstep => sound_step h hstep
  refine ⟨hsound.bucket.objects, fun task htask hdone hreleased => ?_, fun t task htask => ⟨?_, can_step hsound htask⟩⟩
  · have hfits := (hsound.tasks task htask).2
    rw [hdone] at hfits
    exact Option.ne_none_iff_exists'.mp (hfits hreleased)
  · have htaken := steps_taken hrun t
    rw [StepsTaken, htask] at htaken
    exact Nat.le_trans (Nat.le_of_add_right_le htaken) (left_stat _)

/-! ## An upload in two parts -/

/-- The SHA-256 of one zero more than a part has bytes. -/
def zerosHash : String := "1003b1b5dc078189799a1216ce0f9fbcebb94e8b6b83c58c4b03345f07f94ced"

def sampleSha256 (_ : Bytes) : String := zerosHash

/-- The MD5 of one zero, or of as many as a part has bytes. -/
def sampleEtag (body : Bytes) : String :=
  if body.length = 1 then "93b885adfe0da089cdf634904fd59f71" else "2c7ab85a893283e98c931e9511add182"

abbrev SampleStep : Uploading → Event → Uploading → Prop := Uploading.Step "" sampleEtag sampleSha256

section TwoParts

variable (zeros : Bytes)

def firstPart : Bytes := partBody zeros multipartUploadPartSize 1

def lastPart : Bytes := partBody zeros multipartUploadPartSize 2

/-- The upload of the zeros, alone. -/
def uploadingZeros (bucket : Bucket) (wire : List Request) (started : List (String × Bytes)) (phase : Phase) :
    Uploading :=
  ⟨bucket, wire, started, [⟨zerosHash, zeros, phase, false⟩]⟩

def noBucket : Bucket := ⟨fun _ => none, fun _ => none⟩

/-- The bucket while the parts are sent. -/
def partsBucket (parts : Nat → Option Bytes) : Bucket :=
  ⟨fun _ => none, Function.update (fun _ => none) 0 (some ⟨key "" zerosHash, parts⟩)⟩

theorem assemble_two (name : String) (first last : Bytes) :
    Multipart.assemble sampleEtag
      ⟨name, Function.update (Function.update (fun _ => none) 2 (some last)) 1 (some first)⟩
      [(1, sampleEtag first), (2, sampleEtag last)] = some (first ++ last) := by
  simp [Multipart.assemble, Multipart.part, Option.filter]

def tag (number : Nat) : Nat × String := (number, sampleEtag (partBody zeros multipartUploadPartSize number))

/-- Both parts are sent. -/
def bothParts : Bucket :=
  partsBucket (Function.update (Function.update (fun _ => none) 2 (some (lastPart zeros))) 1 (some (firstPart zeros)))

variable {zeros}

theorem goOn {bucket : Bucket} {wire : List Request} {started : List (String × Bytes)} {phase phase' : Phase}
    {sends : Sends} (hrun : ∃ events, Run SampleStep .empty events (uploadingZeros zeros bucket wire started phase))
    (hstep : Task.Step "" sampleEtag bucket started.length zerosHash zeros phase sends phase')
    (hpossible : (uploadingZeros zeros bucket wire started phase).Possible sampleEtag sends) :
    ∃ events, Run SampleStep .empty events ((uploadingZeros zeros bucket wire started phase).sent "" sampleEtag 0
      ⟨zerosHash, zeros, phase, false⟩ sends phase') := by
  obtain ⟨events, hrun⟩ := hrun
  exact ⟨_, hrun.snoc (.step rfl hstep hpossible)⟩

theorem exec_uploadPart (parts : Nat → Option Bytes) (number : Nat) (body : Bytes) :
    (partsBucket parts).exec sampleEtag (.uploadPart 0 number body) =
      partsBucket (Function.update parts number (some body)) := by
  simp only [partsBucket, Bucket.exec, Function.update_self, Function.update_idem]

variable (hzeros : zeros.length = 16777217)

include hzeros

/-- The last part is sent first, and the first one is throttled once. -/
theorem zeros_sent : ∃ events wire, Run SampleStep .empty events
    (uploadingZeros zeros (bothParts zeros) (.uploadPart 0 1 (firstPart zeros) :: wire) [(zerosHash, zeros)]
      (.complete 0 [tag zeros 1, tag zeros 2])) := by
  have hupload : SampleStep .empty (.upload zerosHash zeros) (uploadingZeros zeros noBucket [] [] .stat) :=
    @Uploading.Step.upload "" sampleEtag sampleSha256 .empty zerosHash zeros rfl
  have hstart : ∃ events, Run SampleStep .empty events (uploadingZeros zeros noBucket [] [] .stat) :=
    ⟨_, Run.nil.snoc hupload⟩
  have hstat : ∃ events, Run SampleStep .empty events (uploadingZeros zeros noBucket [] [] .head) := by
    rw [show Phase.head = afterStat zeros.length by rw [hzeros]; rfl]
    exact goOn hstart (.stat true) trivial
  have hhead : ∃ events, Run SampleStep .empty events
      (uploadingZeros zeros noBucket [] [] (.create multipartUploadPartSize)) := by
    rw [show Phase.create multipartUploadPartSize = send zeros.length by rw [hzeros]; rfl]
    exact goOn hstat (.head false fun h => by cases h) trivial
  have hcreate : ∃ events, Run SampleStep .empty events (uploadingZeros zeros (partsBucket fun _ => none) []
      [(zerosHash, zeros)] (.parts 0 multipartUploadPartSize [0, 1] [] [])) := by
    rw [show [0, 1] = List.range (divCeil zeros.length multipartUploadPartSize) by rw [hzeros]; rfl]
    exact goOn hhead .create trivial
  have hfirst := goOn hcreate (.start (by decide)) trivial
  have hboth : ∃ events, Run SampleStep .empty events (uploadingZeros zeros (partsBucket fun _ => none) []
      [(zerosHash, zeros)] (.parts 0 multipartUploadPartSize [] [(0, ⟨0, 0⟩), (1, ⟨0, 0⟩)] [])) :=
    goOn hfirst (.start (by decide)) trivial
  have hlast : ∃ events, Run SampleStep .empty events (uploadingZeros zeros
      (partsBucket (Function.update (fun _ => none) 2 (some (lastPart zeros)))) [.uploadPart 0 2 (lastPart zeros)]
      [(zerosHash, zeros)] (.parts 0 multipartUploadPartSize [] [(0, ⟨0, 0⟩)] [tag zeros 2])) := by
    rw [← exec_uploadPart]
    exact goOn hboth (.part true (List.mem_cons_of_mem _ List.mem_cons_self) rfl rfl) (fun h => by cases h)
  have hthrottled : ∃ events, Run SampleStep .empty events (uploadingZeros zeros
      (partsBucket (Function.update (fun _ => none) 2 (some (lastPart zeros))))
      [.uploadPart 0 1 (firstPart zeros), .uploadPart 0 2 (lastPart zeros)] [(zerosHash, zeros)]
      (.parts 0 multipartUploadPartSize [] [(0, ⟨0, 1⟩)] [tag zeros 2])) :=
    goOn hlast (.partFailed .throttled List.mem_cons_self rfl rfl) trivial
  have hagain : ∃ events, Run SampleStep .empty events (uploadingZeros zeros (bothParts zeros)
      (.uploadPart 0 1 (firstPart zeros) :: [.uploadPart 0 1 (firstPart zeros), .uploadPart 0 2 (lastPart zeros)])
      [(zerosHash, zeros)] (.parts 0 multipartUploadPartSize [] [] [tag zeros 2, tag zeros 1])) := by
    rw [bothParts, ← exec_uploadPart]
    exact goOn hthrottled (.part true List.mem_cons_self rfl rfl) (fun h => by cases h)
  have hsorted : [tag zeros 2, tag zeros 1].mergeSort partLe = [tag zeros 1, tag zeros 2] := by
    simp [List.mergeSort, List.MergeSort.Internal.splitInTwo, tag, partLe]
  obtain ⟨events, hrun⟩ := goOn hagain .sent trivial
  rw [hsorted] at hrun
  exact ⟨events, _, hrun⟩

/-- The upload ends, and the throttled part comes once more. -/
theorem zeros_uploaded : ∃ events s, Run SampleStep .empty events s ∧
    s.tasks = [⟨zerosHash, zeros, .done true, false⟩] := by
  obtain ⟨events, wire, hrun⟩ := zeros_sent hzeros
  have haccepts : (bothParts zeros).Accepts sampleEtag (.complete 0 [tag zeros 1, tag zeros 2]) := by
    simp only [bothParts, partsBucket, Bucket.Accepts, Function.update_self]
    refine ⟨_, rfl, ?_⟩
    rw [show [tag zeros 1, tag zeros 2] =
      [(1, sampleEtag (firstPart zeros)), (2, sampleEtag (lastPart zeros))] from rfl, assemble_two]
    exact Option.some_ne_none _
  obtain ⟨events', hdone⟩ := goOn ⟨events, hrun⟩ .complete haccepts
  have hlate := hdone.snoc (.deliver (List.mem_cons_of_mem _ List.mem_cons_self))
  exact ⟨_, _, hlate, rfl⟩

end TwoParts

/-- It is there then, and took no more steps than it may. -/
theorem zeros_whole : ∃ events s, Run SampleStep .empty events s ∧
    (∃ object, s.bucket.objects (key "" zerosHash) = some object ∧ sampleSha256 object = zerosHash) ∧
    events.count (.step 0) ≤ 40 := by
  obtain ⟨zeros, hzeros⟩ : ∃ zeros : Bytes, zeros.length = 16777217 :=
    ⟨List.replicate 16777217 0, List.length_replicate⟩
  obtain ⟨events, s, hrun, htasks⟩ := zeros_uploaded hzeros
  obtain ⟨hobjects, hdone, hsteps⟩ := uploads_whole hrun
  obtain ⟨object, hobject⟩ := hdone ⟨zerosHash, zeros, .done true, false⟩ (htasks ▸ List.mem_singleton_self _) rfl rfl
  refine ⟨events, s, hrun, ⟨object, hobject, hobjects _ _ hobject⟩, ?_⟩
  have hbound := (hsteps 0 _ (congrArg (fun tasks => tasks[0]?) htasks)).1
  rw [hzeros] at hbound
  exact hbound

end Ripclone.S3
