import Mathlib.Algebra.Order.BigOperators.Group.List
import Mathlib.Data.List.Sort
import Zeron.Doc.Rebuild
import Zeron.Lib.Base64
import Zeron.Lib.Digits

/-!
# Uploads

`crates/engine/src/uploads.rs`: chunks of base64 text are staged under the id of their upload, a commit
joins them into a file, and a file is read back in chunks. All state is on disk. Texts are lists of
characters, paths are canonical and times are in nanoseconds.
-/

namespace Zeron.Engine

open Zeron.Doc (isWhitespace trim trim_eq_self)
open Zeron.Lib (Bytes)
open Zeron.Lib.Utf8 (utf8Len)

namespace Uploads

inductive UploadError where
  | invalidId
  | invalidIndex
  | tooLarge
  | unknown
  | missingChunk
  | invalidBase64
  | outside
  | attachmentTooLarge
  | unsupported

/-- The text of the error; the decoder adds its reason to `invalidBase64`. -/
def UploadError.message : UploadError → String
  | invalidId => "Invalid upload id"
  | invalidIndex => "Invalid chunk index"
  | tooLarge => "Upload too large"
  | unknown => "Unknown or expired upload"
  | missingChunk => "Upload is missing a chunk"
  | invalidBase64 => "upload is not valid base64: "
  | outside => "Attachment is outside the upload cache"
  | attachmentTooLarge => "Attachment is too large"
  | unsupported => "Attachment is not a supported image"

def stagingTtl : Nat := 600_000_000_000

def maxBytes : Nat := 32 * 1024 * 1024

def readChunkBytes : Nat := 45_000

/-! ## Names -/

/-- `Path::file_stem` and `Path::extension` of a file name. -/
def splitExtension (name : List Char) : List Char × Option (List Char) :=
  match name.reverse.dropWhile (· ≠ '.') with
  | [] | [_] => (name, none)
  | _ :: front => (front.reverse, some (name.reverse.takeWhile (· ≠ '.')).reverse)

/-- `str::parse::<u64>` -/
def parseU64 (cs : List Char) : Option Nat :=
  let digits := if cs.head? = some '+' then cs.tail else cs
  let value := Nat.ofDigitChars 10 digits 0
  if digits ≠ [] ∧ digits.all Char.isDigit = true ∧ value < 18446744073709551616 then some value
  else none

/-- `{at:06}.b64` -/
def chunkName (index : Nat) : List Char :=
  (Nat.toDigits 10 index).leftpad 6 '0' ++ ['.', 'b', '6', '4']

def chunkSeq (name : List Char) : Option Nat :=
  if (splitExtension name).2 = some ['b', '6', '4'] then parseU64 (splitExtension name).1 else none

def accepted (id : List Char) : Bool :=
  id ≠ [] ∧ utf8Len id ≤ 64 ∧ id.all fun c => c.isAlphanum || c == '-' || c == '_'

/-- `Path::file_name` -/
def baseName (path : List Char) : Option (List Char) :=
  match ((path.splitOn '/').filter fun part => part ≠ [] ∧ part ≠ ['.']).getLast? with
  | none => none
  | some part => if part = ['.', '.'] then none else some part

def sanitize (fileName : List Char) : List Char :=
  let cleaned := ((baseName fileName).getD []).map fun c =>
    if c.isAlphanum || c == '.' || c == '-' || c == '_' then c else '_'
  let tail := cleaned.drop (cleaned.length - 80)
  if tail = [] then "upload".toList else tail

def durableName (id fileName : List Char) : List Char := id.take 8 ++ '-' :: sanitize fileName

def mimeOf : List Char → Option String
  | ['p', 'n', 'g'] => some "image/png"
  | ['j', 'p', 'g'] | ['j', 'p', 'e', 'g'] => some "image/jpeg"
  | ['g', 'i', 'f'] => some "image/gif"
  | ['w', 'e', 'b', 'p'] => some "image/webp"
  | ['s', 'v', 'g'] => some "image/svg+xml"
  | ['b', 'm', 'p'] => some "image/bmp"
  | ['t', 'i', 'f'] | ['t', 'i', 'f', 'f'] => some "image/tiff"
  | ['a', 'v', 'i', 'f'] => some "image/avif"
  | ['h', 'e', 'i', 'c'] => some "image/heic"
  | _ => none

def mimeByExt (name : List Char) : Option String :=
  (splitExtension name).2.bind fun extension => mimeOf (extension.map Char.toLower)

/-! ## Staging -/

structure ChunkFile where
  name : List Char
  data : List Char
  modified : Nat

def chunkFiles (files : List ChunkFile) : List (Nat × ChunkFile) :=
  files.filterMap fun file => (chunkSeq file.name).map (·, file)

def nextFreeSeq (files : List ChunkFile) : Nat :=
  (chunkFiles files).foldl (fun next part => max next (part.1 + 1)) 0

def stagedBytes (files : List ChunkFile) (index : Nat) : Nat :=
  (((chunkFiles files).filter fun part => part.1 ≠ index).map fun part => utf8Len part.2.data).sum

def writeChunk (chunk : ChunkFile) : List ChunkFile → List ChunkFile
  | [] => [chunk]
  | file :: files =>
      if file.name = chunk.name then chunk :: files else file :: writeChunk chunk files

def expired (now : Nat) (files : List ChunkFile) : Bool :=
  match (files.map (·.modified)).max? with
  | none => true
  | some newest => newest + stagingTtl < now

end Uploads

open Uploads

/-- `tmp` holds the staging directory of each upload, `files` the regular files by their path. -/
structure Uploads where
  root : List Char
  readOnlyRoots : List (List Char)
  tmp : List Char → Option (List ChunkFile)
  files : List Char → Option Bytes

variable {files : List ChunkFile} {chunks : List (List Char)}

variable {index : Nat}

namespace Uploads

variable (s : Uploads)

def setTmp (id : List Char) (staged : Option (List ChunkFile)) : Uploads :=
  { s with tmp := Function.update s.tmp id staged }

def sweep (now : Nat) : Uploads :=
  { s with tmp := fun id => (s.tmp id).filter fun files => !expired now files }

def append (now : Nat) (id data : List Char) (seq : Option Nat) : Except UploadError Unit × Uploads :=
  if accepted id = false then (.error .invalidId, s)
  else
    let swept := s.sweep now
    let files := (swept.tmp id).getD []
    let index := seq.getD (nextFreeSeq files)
    if 1_000_000 < index then (.error .invalidIndex, swept.setTmp id (some files))
    else if maxBytes < (stagedBytes files index + utf8Len data) * 3 / 4 then
      (.error .tooLarge, swept.setTmp id none)
    else (.ok (), swept.setTmp id (some (writeChunk ⟨chunkName index, data, now⟩ files)))

/-- The chunks from `index` on, joined; `none` at a hole. -/
def assemble : Nat → List (Nat × ChunkFile) → Option (List Char)
  | _, [] => some []
  | index, (seq, file) :: parts =>
      if seq = index then (assemble (index + 1) parts).map (trim file.data ++ ·) else none

def sortedParts (files : List ChunkFile) : List (Nat × ChunkFile) :=
  (chunkFiles files).insertionSort fun left right => left.1 ≤ right.1

def durablePath (id fileName : List Char) : List Char := s.root ++ '/' :: durableName id fileName

def commit (id fileName : List Char) : Except UploadError (List Char) × Uploads :=
  if accepted id = false then (.error .invalidId, s)
  else
    let parts := sortedParts ((s.tmp id).getD [])
    if parts = [] then (.error .unknown, s)
    else
      match assemble 0 parts with
      | none => (.error .missingChunk, s)
      | some joined =>
          match Lib.Base64.decode joined with
          | none => (.error .invalidBase64, s)
          | some bytes =>
              if maxBytes < bytes.length then (.error .tooLarge, s.setTmp id none)
              else
                let path := s.durablePath id fileName
                (.ok path,
                  { s.setTmp id none with files := Function.update s.files path (some bytes) })

/-! ## Reading -/

structure AttachmentChunk where
  name : List Char
  mimeType : String
  data : List Char
  nextOffset : Nat
  done : Bool

def inside (root path : List Char) : Bool := (root ++ ['/']).isPrefixOf path

def fileName (path : List Char) : List Char := (path.reverse.takeWhile (· ≠ '/')).reverse

def inspect (path : List Char) (extraRoots : List (List Char)) :
    Except UploadError (Bytes × String) :=
  match s.files path with
  | none => .error .outside
  | some bytes =>
      if (s.root :: (s.readOnlyRoots ++ extraRoots)).all (fun root => !inside root path) then
        .error .outside
      else if maxBytes < bytes.length then .error .attachmentTooLarge
      else
        match mimeByExt (fileName path) with
        | none => .error .unsupported
        | some mimeType => .ok (bytes, mimeType)

def readChunk (path : List Char) (offset : Nat) (extraRoots : List (List Char)) :
    Except UploadError AttachmentChunk :=
  (s.inspect path extraRoots).map fun (bytes, mimeType) =>
    let start := min offset bytes.length
    let nextOffset := min (start + readChunkBytes) bytes.length
    { name := fileName path
      mimeType
      data := Lib.Base64.encode ((bytes.drop start).take (nextOffset - start))
      nextOffset
      done := bytes.length ≤ nextOffset }

def maxReadChunks : Nat := 1_000

/-- The loop of `read_attachment_image`: the joined text, once a chunk is the last. -/
def readBack (path : List Char) (extraRoots : List (List Char)) : Nat → Nat → Option (List Char)
  | 0, _ => none
  | budget + 1, offset =>
      match s.readChunk path offset extraRoots with
      | .error _ => none
      | .ok chunk =>
          if chunk.done then some chunk.data
          else if chunk.nextOffset ≤ offset then none
          else (readBack path extraRoots budget chunk.nextOffset).map (chunk.data ++ ·)

def restart (readOnlyRoots : List (List Char)) : Uploads := { s with readOnlyRoots }

/-! ## Names of chunks -/

theorem splitExtension_append {stem : List Char} (h : stem ≠ []) {extension : List Char}
    (hdot : '.' ∉ extension) : splitExtension (stem ++ '.' :: extension) = (stem, some extension) := by
  have hreverse : (stem ++ '.' :: extension).reverse = extension.reverse ++ '.' :: stem.reverse := by
    simp
  have hkept : ∀ c ∈ extension.reverse, decide (c ≠ '.') = true := by
    intro c hc
    rw [decide_eq_true_eq]
    rintro rfl
    exact hdot (List.mem_reverse.mp hc)
  unfold splitExtension
  rw [hreverse, List.dropWhile_append_of_pos hkept, List.takeWhile_append_of_pos hkept]
  obtain ⟨c, front, hfront⟩ := List.exists_cons_of_ne_nil (List.reverse_ne_nil_iff.mpr h)
  have hback : ('.' :: stem.reverse).dropWhile (· ≠ '.') = '.' :: c :: front := by
    rw [hfront]
    rfl
  have hempty : ('.' :: stem.reverse).takeWhile (· ≠ '.') = [] := rfl
  rw [hback, hempty, List.append_nil, List.reverse_reverse]
  dsimp only
  rw [← hfront, List.reverse_reverse]

theorem parseU64_leftpad (width : Nat) {n : Nat} (h : n < 18446744073709551616) :
    parseU64 ((Nat.toDigits 10 n).leftpad width '0') = some n := by
  have hsign : ((Nat.toDigits 10 n).leftpad width '0').head? ≠ some '+' := by
    intro hhead
    exact absurd (Lib.Digits.leftpad_isDigit (List.mem_of_mem_head? hhead)) (by decide)
  have hne : (Nat.toDigits 10 n).leftpad width '0' ≠ [] := by
    intro hnil
    exact Nat.toDigits_ne_nil (List.append_eq_nil_iff.mp hnil).2
  unfold parseU64
  rw [if_neg hsign]
  dsimp only
  rw [Lib.Digits.ofDigitChars_leftpad, if_pos]
  refine ⟨hne, ?_, h⟩
  rw [List.all_eq_true]
  exact fun c hc => Lib.Digits.leftpad_isDigit hc

theorem chunkSeq_chunkName (h : index ≤ 1_000_000) :
    chunkSeq (chunkName index) = some index := by
  have hne : (Nat.toDigits 10 index).leftpad 6 '0' ≠ [] := by
    intro hnil
    exact Nat.toDigits_ne_nil (List.append_eq_nil_iff.mp hnil).2
  unfold chunkSeq chunkName
  rw [splitExtension_append hne (by decide), if_pos rfl]
  exact parseU64_leftpad 6 (by omega)

/-! ## Staged chunks -/

/-- The directory holds chunks of the upload, each in a slot of its own. -/
structure Staged (chunks : List (List Char)) (files : List ChunkFile) : Prop where
  slots : (files.map (·.name)).Nodup
  chunk : ∀ file ∈ files, ∃ index, file.name = chunkName index ∧ chunks[index]? = some file.data

theorem names_writeChunk (chunk : ChunkFile) (files : List ChunkFile) :
    (writeChunk chunk files).map (·.name) =
      if chunk.name ∈ files.map (·.name) then files.map (·.name)
      else files.map (·.name) ++ [chunk.name] := by
  induction files with
  | nil => rfl
  | cons file files ih =>
      rw [writeChunk]
      split_ifs with hsame hmem hmem
      · rw [List.map_cons, List.map_cons, hsame]
      · simp [hsame] at hmem
      · have hrest : chunk.name ∈ files.map (·.name) := by
          simpa [Ne.symm hsame] using hmem
        rw [List.map_cons, ih, if_pos hrest, List.map_cons]
      · have hrest : chunk.name ∉ files.map (·.name) := by
          intro h
          exact hmem (List.mem_cons_of_mem _ h)
        rw [List.map_cons, ih, if_neg hrest, List.map_cons, List.cons_append]

theorem mem_writeChunk {chunk file : ChunkFile} (h : file ∈ writeChunk chunk files) :
    file = chunk ∨ file ∈ files := by
  induction files with
  | nil => exact .inl (List.mem_singleton.mp h)
  | cons first files ih =>
      rw [writeChunk] at h
      split_ifs at h
      · exact (List.mem_cons.mp h).imp_right (List.mem_cons_of_mem _)
      · obtain rfl | h := List.mem_cons.mp h
        · exact .inr List.mem_cons_self
        · exact (ih h).imp_right (List.mem_cons_of_mem _)

theorem self_mem_writeChunk (chunk : ChunkFile) (files : List ChunkFile) :
    chunk ∈ writeChunk chunk files := by
  induction files with
  | nil => exact List.mem_singleton_self chunk
  | cons first files ih =>
      rw [writeChunk]
      split_ifs
      · exact List.mem_cons_self
      · exact List.mem_cons_of_mem _ ih

theorem mem_seqs (hindex : index ≤ 1_000_000) (hname : chunkName index ∈ files.map (·.name)) :
    index ∈ (chunkFiles files).map (·.1) := by
  obtain ⟨file, hfile, heq⟩ := List.mem_map.mp hname
  refine List.mem_map.mpr ⟨(index, file), List.mem_filterMap.mpr ⟨file, hfile, ?_⟩, rfl⟩
  rw [heq, chunkSeq_chunkName hindex]
  rfl

theorem utf8Len_append (front back : List Char) :
    utf8Len (front ++ back) = utf8Len front + utf8Len back := by
  simp [utf8Len]

theorem sum_map_utf8Len (chunks : List (List Char)) :
    (chunks.map utf8Len).sum = utf8Len chunks.flatten := by
  induction chunks with
  | nil => rfl
  | cons chunk chunks ih =>
      rw [List.map_cons, List.sum_cons, ih, List.flatten_cons, utf8Len_append]

theorem sum_utf8Len_le {indices : List Nat} (hdistinct : indices.Nodup)
    (hlt : ∀ index ∈ indices, index < chunks.length) :
    (indices.map fun index => utf8Len (chunks[index]?.getD [])).sum ≤ utf8Len chunks.flatten := by
  have hall : (List.range chunks.length).map (fun index => utf8Len (chunks[index]?.getD [])) =
      chunks.map utf8Len := by
    apply List.ext_getElem
    · simp
    · intro index h _
      have hindex : index < chunks.length := by simpa using h
      simp [hindex]
  have hsubset : indices ⊆ List.range chunks.length :=
    fun index hindex => List.mem_range.mpr (hlt index hindex)
  obtain ⟨indices', hperm, hsub⟩ := List.subperm_of_subset hdistinct hsubset
  rw [← sum_map_utf8Len, ← hall, ← (hperm.map _).sum_nat]
  exact (hsub.map _).sum_le_sum fun _ _ => Nat.zero_le _

namespace Staged

variable {chunks : List (List Char)} {files : List ChunkFile} (h : Staged chunks files)
include h

theorem writeChunk {data : List Char} (hdata : chunks[index]? = some data) (now : Nat) :
    Staged chunks (writeChunk ⟨chunkName index, data, now⟩ files) where
  slots := by
    rw [names_writeChunk]
    split_ifs with hmem
    · exact h.slots
    · exact List.nodup_append.mpr ⟨h.slots, List.nodup_singleton _, by
        intro name hname other hother heq
        rw [List.mem_singleton.mp hother] at heq
        exact hmem (heq ▸ hname)⟩
  chunk := by
    intro file hfile
    obtain rfl | hfile := mem_writeChunk hfile
    · exact ⟨index, rfl, hdata⟩
    · exact h.chunk file hfile

variable (hcount : chunks.length ≤ 1_000_001)
include hcount

theorem chunkSeq_eq {file : ChunkFile} (hfile : file ∈ files) :
    ∃ index, file.name = chunkName index ∧ chunkSeq file.name = some index ∧
      chunks[index]? = some file.data := by
  obtain ⟨index, hname, hdata⟩ := h.chunk file hfile
  have hlt := (List.getElem?_eq_some_iff.mp hdata).1
  exact ⟨index, hname, by rw [hname, chunkSeq_chunkName (by omega)], hdata⟩

theorem mem_chunkFiles {part : Nat × ChunkFile} (hpart : part ∈ chunkFiles files) :
    part.2 ∈ files ∧ part.2.name = chunkName part.1 ∧ chunks[part.1]? = some part.2.data := by
  obtain ⟨file, hfile, hseq⟩ := List.mem_filterMap.mp hpart
  obtain ⟨index, hname, hindex, hdata⟩ := h.chunkSeq_eq hcount hfile
  rw [hindex] at hseq
  cases hseq
  exact ⟨hfile, hname, hdata⟩

theorem nodup_seqs : ((chunkFiles files).map (·.1)).Nodup := by
  have hslots : files.Pairwise fun left right => left.name ≠ right.name :=
    List.pairwise_map.mp h.slots
  rw [List.Nodup, List.pairwise_map, chunkFiles, List.pairwise_filterMap]
  refine hslots.imp_of_mem fun hleft hright hne left hl right hr heq => hne ?_
  have hleft' := (h.mem_chunkFiles hcount (List.mem_filterMap.mpr ⟨_, hleft, hl⟩)).2.1
  have hright' := (h.mem_chunkFiles hcount (List.mem_filterMap.mpr ⟨_, hright, hr⟩)).2.1
  obtain ⟨seq, -, rfl⟩ := Option.map_eq_some_iff.mp hl
  obtain ⟨seq', -, rfl⟩ := Option.map_eq_some_iff.mp hr
  exact hleft'.trans ((congrArg chunkName heq).trans hright'.symm)

/-- A chunk fits beside the others if the text fits. -/
theorem stagedBytes_le {data : List Char} (hdata : chunks[index]? = some data) :
    stagedBytes files index + utf8Len data ≤ utf8Len chunks.flatten := by
  have hother : ((chunkFiles files).filter fun part => part.1 ≠ index).map
        (fun part => utf8Len part.2.data) =
      (((chunkFiles files).filter fun part => part.1 ≠ index).map (·.1)).map
        fun index => utf8Len (chunks[index]?.getD []) := by
    rw [List.map_map]
    apply List.map_congr_left
    intro part hpart
    have hchunk := (h.mem_chunkFiles hcount (List.mem_filter.mp hpart).1).2.2
    simp [hchunk]
  have hindices : (index ::
      ((chunkFiles files).filter fun part => part.1 ≠ index).map (·.1)).Nodup := by
    rw [List.nodup_cons]
    constructor
    · intro hmem
      obtain ⟨part, hpart, heq⟩ := List.mem_map.mp hmem
      exact of_decide_eq_true (List.mem_filter.mp hpart).2 heq
    · exact (h.nodup_seqs hcount).sublist (List.filter_sublist.map _)
  have hlt : ∀ other ∈ index :: ((chunkFiles files).filter fun part => part.1 ≠ index).map (·.1),
      other < chunks.length := by
    intro other hother
    obtain rfl | hother := List.mem_cons.mp hother
    · exact (List.getElem?_eq_some_iff.mp hdata).1
    · obtain ⟨part, hpart, rfl⟩ := List.mem_map.mp hother
      have hchunk := (h.mem_chunkFiles hcount (List.mem_filter.mp hpart).1).2.2
      exact (List.getElem?_eq_some_iff.mp hchunk).1
  have hsum := sum_utf8Len_le hindices hlt
  rw [List.map_cons, List.sum_cons, hdata, ← hother] at hsum
  rw [stagedBytes]
  exact (Nat.add_comm _ _).trans_le hsum

end Staged

/-! ## Sending -/

/-- What befalls the engine while an upload runs: a chunk arrives, or the process starts anew. -/
inductive Event where
  | send (now index : Nat)
  | restart (readOnlyRoots : List (List Char))

def step (chunks : List (List Char)) (id : List Char) (s : Uploads) : Event → Uploads
  | .send now index => (s.append now id (chunks[index]?.getD []) (some index)).2
  | .restart readOnlyRoots => s.restart readOnlyRoots

def sent (events : List Event) : List Nat :=
  events.filterMap fun
    | .send _ index => some index
    | .restart _ => none

/-- No chunk arrives after the chunk before it has expired. -/
def Paced : Option Nat → List Event → Prop
  | _, [] => True
  | last, .restart _ :: events => Paced last events
  | last, .send now _ :: events => (∀ time ∈ last, now ≤ time + stagingTtl) ∧ Paced (some now) events

/-- The staging directory after some sends, the last at a time. -/
def InProgress (s : Uploads) (id : List Char) (chunks : List (List Char)) (done : List Nat) :
    Option Nat → Prop
  | none => s.tmp id = none ∧ done = []
  | some last => ∃ files, s.tmp id = some files ∧ Staged chunks files ∧
      (∃ file ∈ files, last ≤ file.modified) ∧
      ∀ index ∈ done, chunkName index ∈ files.map (·.name)

theorem not_expired {last now : Nat} (hnewest : ∃ file ∈ files, last ≤ file.modified)
    (hpace : now ≤ last + stagingTtl) :
    expired now files = false := by
  obtain ⟨file, hfile, hlast⟩ := hnewest
  obtain ⟨newest, hmax⟩ := Option.isSome_iff_exists.mp
    (List.isSome_max?_of_mem (List.mem_map_of_mem (f := fun file : ChunkFile => file.modified) hfile))
  have hle := (List.max?_eq_some_iff.mp hmax).2 _ (List.mem_map_of_mem hfile)
  unfold expired
  rw [hmax]
  exact decide_eq_false (by omega)

section Send

variable {s : Uploads} {id : List Char} {chunks : List (List Char)} {done : List Nat}
  {last : Option Nat} (hid : accepted id = true) (hcount : chunks.length ≤ 1_000_001)
  (hsize : utf8Len chunks.flatten * 3 / 4 ≤ maxBytes)
include hid hcount hsize

theorem append_eq {now index : Nat} {data : List Char}
    (hfiles : ((s.sweep now).tmp id).getD [] = files) (h : Staged chunks files)
    (hdata : chunks[index]? = some data) :
    (s.append now id data (some index)).2 =
      (s.sweep now).setTmp id (some (writeChunk ⟨chunkName index, data, now⟩ files)) := by
  have hindex : ¬ 1_000_000 < index := by
    have hlt := (List.getElem?_eq_some_iff.mp hdata).1
    omega
  have hroom : ¬ maxBytes < (stagedBytes files index + utf8Len data) * 3 / 4 := by
    have hle := h.stagedBytes_le hcount hdata
    omega
  unfold append
  dsimp only
  rw [hfiles, if_neg (by simp [hid]), Option.getD_some, if_neg hindex, if_neg hroom]

theorem inProgress_send (h : s.InProgress id chunks done last) {now index : Nat}
    (hindex : index < chunks.length) (hpace : ∀ time ∈ last, now ≤ time + stagingTtl) :
    (step chunks id s (.send now index)).InProgress id chunks (index :: done) (some now) := by
  have hdata : chunks[index]? = some (chunks[index]?.getD []) := by simp [hindex]
  have hswept : ∃ files, ((s.sweep now).tmp id).getD [] = files ∧ Staged chunks files ∧
      ∀ index ∈ done, chunkName index ∈ files.map (·.name) := by
    cases last with
    | none =>
        obtain ⟨htmp, rfl⟩ := h
        exact ⟨[], by simp [sweep, htmp], ⟨by simp, by simp⟩, by simp⟩
    | some last =>
        obtain ⟨files, htmp, hstaged, hnewest, hdone⟩ := h
        have hkeep := not_expired hnewest (hpace last rfl)
        exact ⟨files, by simp [sweep, htmp, Option.filter, hkeep], hstaged, hdone⟩
  obtain ⟨files, hfiles, hstaged, hdone⟩ := hswept
  have happend := append_eq hid hcount hsize hfiles hstaged hdata
  have hself := self_mem_writeChunk ⟨chunkName index, chunks[index]?.getD [], now⟩ files
  refine ⟨_, by rw [step, happend]; exact Function.update_self _ _ _, hstaged.writeChunk hdata now,
    ⟨_, hself, le_rfl⟩, ?_⟩
  intro other hother
  obtain rfl | hother := List.mem_cons.mp hother
  · exact List.mem_map.mpr ⟨_, hself, rfl⟩
  · rw [names_writeChunk]
    split_ifs
    · exact hdone other hother
    · exact List.mem_append_left _ (hdone other hother)

theorem inProgress_run {events : List Event} (h : s.InProgress id chunks done last)
    (hpace : Paced last events) (hsent : ∀ index ∈ sent events, index < chunks.length) :
    ∃ last, (events.foldl (step chunks id) s).InProgress id chunks
      ((sent events).reverse ++ done) last := by
  induction events generalizing s done last with
  | nil => exact ⟨last, h⟩
  | cons event events ih =>
      cases event with
      | restart readOnlyRoots =>
          refine ih (s := s.restart readOnlyRoots) ?_ hpace hsent
          cases last <;> exact h
      | send now index =>
          have hnext := inProgress_send hid hcount hsize h (hsent index List.mem_cons_self) hpace.1
          obtain ⟨last', hrun⟩ := ih hnext hpace.2 fun other hother =>
            hsent other (List.mem_cons_of_mem _ hother)
          refine ⟨last', ?_⟩
          have hreverse : (sent (.send now index :: events)).reverse ++ done =
              (sent events).reverse ++ index :: done := by simp [sent]
          rw [hreverse]
          exact hrun

end Send

/-! ## Joining -/

theorem assemble_of_range {parts : List (Nat × ChunkFile)}
    (h : parts.map (·.1) = List.range' index parts.length) :
    assemble index parts = some (parts.map fun part => trim part.2.data).flatten := by
  induction parts generalizing index with
  | nil => rfl
  | cons part parts ih =>
      rw [List.map_cons, List.length_cons, List.range'_succ] at h
      obtain ⟨hfirst, hrest⟩ := List.cons.inj h
      rw [assemble, if_pos hfirst, ih hrest]
      rfl

theorem range_of_assemble {parts : List (Nat × ChunkFile)} (h : assemble index parts ≠ none) :
    parts.map (·.1) = List.range' index parts.length := by
  induction parts generalizing index with
  | nil => rfl
  | cons part parts ih =>
      rw [assemble] at h
      split_ifs at h with hseq
      · have hrest := ih (by simpa using h)
        rw [List.map_cons, List.length_cons, List.range'_succ, hseq, hrest]
      · exact absurd rfl h

theorem pairwise_sortedParts (files : List ChunkFile) :
    ((sortedParts files).map (·.1)).Pairwise (· ≤ ·) := by
  have htotal : Std.Total fun left right : Nat × ChunkFile => left.1 ≤ right.1 :=
    ⟨fun left right => Nat.le_total left.1 right.1⟩
  have htrans : IsTrans (Nat × ChunkFile) fun left right => left.1 ≤ right.1 :=
    ⟨fun _ _ _ => Nat.le_trans⟩
  rw [List.pairwise_map]
  exact List.pairwise_insertionSort _ _

theorem perm_sortedParts (files : List ChunkFile) :
    (sortedParts files).Perm (chunkFiles files) :=
  List.perm_insertionSort _ _

theorem Staged.sortedParts_eq (h : Staged chunks files) (hcount : chunks.length ≤ 1_000_001)
    (hall : ∀ index < chunks.length, chunkName index ∈ files.map (·.name)) :
    (sortedParts files).map (·.1) = List.range chunks.length := by
  have hperm : ((chunkFiles files).map (·.1)).Perm (List.range chunks.length) := by
    rw [List.perm_ext_iff_of_nodup (h.nodup_seqs hcount) List.nodup_range]
    intro index
    rw [List.mem_range]
    constructor
    · intro hmem
      obtain ⟨part, hpart, rfl⟩ := List.mem_map.mp hmem
      exact (List.getElem?_eq_some_iff.mp (h.mem_chunkFiles hcount hpart).2.2).1
    · intro hlt
      exact mem_seqs (by omega) (hall index hlt)
  refine List.Perm.eq_of_pairwise (fun _ _ _ _ => Nat.le_antisymm) (pairwise_sortedParts files)
    List.pairwise_le_range (((perm_sortedParts files).map _).trans hperm)

theorem trim_of_visible {text : List Char} (h : ∀ c ∈ text, 0x21 ≤ c.toNat ∧ c.toNat < 0x7F) :
    trim text = text := by
  have hvisible : ∀ c ∈ text, isWhitespace c = false := by
    intro c hc
    have := h c hc
    simp only [isWhitespace, decide_eq_false_iff_not]
    omega
  exact trim_eq_self (fun c hc => hvisible c (List.mem_of_mem_head? hc))
    (fun c hc => hvisible c (List.mem_of_getLast? hc))

theorem Staged.assemble_eq (h : Staged chunks files) (hcount : chunks.length ≤ 1_000_001)
    (hall : ∀ index < chunks.length, chunkName index ∈ files.map (·.name))
    (hvisible : ∀ c ∈ chunks.flatten, 0x21 ≤ c.toNat ∧ c.toNat < 0x7F) :
    assemble 0 (sortedParts files) = some chunks.flatten := by
  have hseqs := h.sortedParts_eq hcount hall
  have hlength : (sortedParts files).length = chunks.length := by
    simpa using congrArg List.length hseqs
  have hrange : (sortedParts files).map (·.1) = List.range' 0 (sortedParts files).length := by
    rw [hseqs, hlength, List.range_eq_range']
  have hdata : (sortedParts files).map (fun part => trim part.2.data) = chunks := by
    calc (sortedParts files).map (fun part => trim part.2.data)
        = (sortedParts files).map fun part => chunks[part.1]?.getD [] := by
          apply List.map_congr_left
          intro part hpart
          have hmem := (perm_sortedParts files).mem_iff.mp hpart
          have hchunk := (h.mem_chunkFiles hcount hmem).2.2
          rw [hchunk, Option.getD_some]
          refine trim_of_visible fun c hc => hvisible c ?_
          exact List.mem_flatten.mpr ⟨_, List.mem_of_getElem? hchunk, hc⟩
      _ = (List.range chunks.length).map fun index => chunks[index]?.getD [] := by
          rw [← hseqs, List.map_map]
          rfl
      _ = chunks := by
          apply List.ext_getElem
          · simp
          · intro index _ hindex
            simp [hindex]
  rw [assemble_of_range hrange, hdata]

/-! ## Reading back -/

theorem fileName_append (front : List Char) {name : List Char} (h : '/' ∉ name) :
    fileName (front ++ '/' :: name) = name := by
  have hreverse : (front ++ '/' :: name).reverse = name.reverse ++ '/' :: front.reverse := by simp
  have hkept : ∀ c ∈ name.reverse, decide (c ≠ '/') = true := by
    intro c hc
    rw [decide_eq_true_eq]
    rintro rfl
    exact h (List.mem_reverse.mp hc)
  rw [fileName, hreverse, List.takeWhile_append_of_pos hkept]
  simp

theorem slash_not_mem_durableName {id : List Char} (hid : accepted id = true) (name : List Char) :
    '/' ∉ durableName id name := by
  have hchars := List.all_eq_true.mp (of_decide_eq_true hid).2.2
  unfold durableName
  simp only [List.mem_append, List.mem_cons, not_or]
  refine ⟨fun hmem => ?_, by decide, ?_⟩
  · exact absurd (hchars _ (List.mem_of_mem_take hmem)) (by decide)
  · unfold sanitize
    dsimp only
    split_ifs
    · decide
    · intro hmem
      obtain ⟨c, -, hc⟩ := List.mem_map.mp (List.mem_of_mem_drop hmem)
      split_ifs at hc with hkept
      · rw [hc] at hkept
        exact absurd hkept (by decide)
      · exact absurd hc (by decide)

theorem inspect_eq {s : Uploads} {name : List Char} (hname : '/' ∉ name) {mimeType : String}
    (himage : mimeByExt name = some mimeType) {bytes : Bytes}
    (hfile : s.files (s.root ++ '/' :: name) = some bytes) (hsize : bytes.length ≤ maxBytes)
    (extraRoots : List (List Char)) :
    s.inspect (s.root ++ '/' :: name) extraRoots = .ok (bytes, mimeType) := by
  have hinside : inside s.root (s.root ++ '/' :: name) = true := by
    rw [inside, List.isPrefixOf_iff_prefix]
    exact ⟨name, by simp⟩
  have hroots : ¬ (s.root :: (s.readOnlyRoots ++ extraRoots)).all
      (fun root => !inside root (s.root ++ '/' :: name)) = true := by
    simp [hinside]
  rw [inspect, hfile]
  dsimp only
  rw [if_neg hroots, if_neg (Nat.not_lt.mpr hsize), fileName_append _ hname, himage]

theorem readBack_eq {s : Uploads} {path : List Char} {extraRoots : List (List Char)} {bytes : Bytes}
    {mimeType : String} (h : s.inspect path extraRoots = .ok (bytes, mimeType)) {budget offset : Nat}
    (hoffset : offset ≤ bytes.length) (hbudget : bytes.length - offset < budget * readChunkBytes) :
    s.readBack path extraRoots budget offset = some (Lib.Base64.encode (bytes.drop offset)) := by
  induction budget generalizing offset with
  | zero => omega
  | succ budget ih =>
      have hchunk : s.readChunk path offset extraRoots = .ok
          { name := fileName path, mimeType
            data := Lib.Base64.encode ((bytes.drop offset).take
              (min (offset + readChunkBytes) bytes.length - offset))
            nextOffset := min (offset + readChunkBytes) bytes.length
            done := bytes.length ≤ min (offset + readChunkBytes) bytes.length } := by
        rw [readChunk, h]
        simp only [Except.map, Nat.min_eq_left hoffset]
      rw [readBack, hchunk]
      dsimp only
      by_cases hlast : bytes.length ≤ offset + readChunkBytes
      · rw [Nat.min_eq_right hlast, if_pos (by simp), List.take_of_length_le (by simp)]
      · have hpos : 0 < readChunkBytes := by decide
        have hnext : min (offset + readChunkBytes) bytes.length = offset + readChunkBytes := by omega
        rw [hnext, if_neg (by simpa using hlast), if_neg (by omega), Nat.add_sub_cancel_left,
          ih (by omega) (by rw [Nat.succ_mul] at hbudget; omega)]
        have hthird : ((bytes.drop offset).take readChunkBytes).length % 3 = 0 := by
          rw [List.length_take, List.length_drop, Nat.min_eq_left (by omega)]
          rfl
        rw [Option.map_some, ← List.drop_drop, ← Lib.Base64.encode_append hthird,
          List.take_append_drop]

/-! ## The round trip -/

theorem utf8Len_of_visible {text : List Char} (h : ∀ c ∈ text, 0x21 ≤ c.toNat ∧ c.toNat < 0x7F) :
    utf8Len text = text.length := by
  induction text with
  | nil => rfl
  | cons c text ih =>
      have hc := h c List.mem_cons_self
      have hone : Lib.Utf8.encodeChar c = [.ofNat c.toNat] := by
        have hascii : c.toNat < 0x80 := by omega
        simp [Lib.Utf8.encodeChar, hascii]
      have htext := ih fun other hother => h other (List.mem_cons_of_mem _ hother)
      simpa [utf8Len, hone] using htext

theorem commit_eq {s : Uploads} {id : List Char} (hid : accepted id = true)
    (hcount : chunks.length ≤ 1_000_001) (hfirst : chunks ≠ [])
    (hfiles : s.tmp id = some files) (h : Staged chunks files)
    (hall : ∀ index < chunks.length, chunkName index ∈ files.map (·.name)) {bytes : Bytes}
    (hcut : chunks.flatten = Lib.Base64.encode bytes) (hsize : bytes.length ≤ maxBytes)
    (fileName : List Char) :
    s.commit id fileName = (.ok (s.durablePath id fileName),
      { s.setTmp id none with
        files := Function.update s.files (s.durablePath id fileName) (some bytes) }) := by
  have hjoined : assemble 0 (sortedParts files) = some (Lib.Base64.encode bytes) := by
    rw [← hcut]
    apply h.assemble_eq hcount hall
    rw [hcut]
    exact fun c hc => Lib.Base64.visible_of_mem_encode hc
  have hparts : sortedParts files ≠ [] := by
    intro hnil
    have hseqs := h.sortedParts_eq hcount hall
    rw [hnil] at hseqs
    exact hfirst (List.length_eq_zero_iff.mp (List.range_eq_nil.mp hseqs.symm))
  unfold commit
  rw [if_neg (by simp [hid]), hfiles, Option.getD_some, if_neg hparts, hjoined]
  dsimp only
  rw [Lib.Base64.decode_encode]
  dsimp only
  rw [if_neg (Nat.not_lt.mpr hsize)]

/-- An upload of an image within the engine's limits: a cut of the text of the bytes, each chunk sent
at least once and none after the others expired. -/
structure Transfer (bytes : Bytes) (chunks : List (List Char)) (id name : List Char)
    (events : List Event) : Prop where
  size : bytes.length + 2 ≤ maxBytes
  cut : chunks.flatten = Lib.Base64.encode bytes
  first : chunks ≠ []
  count : chunks.length ≤ 1_000_001
  idAccepted : accepted id = true
  image : mimeByExt (durableName id name) ≠ none
  sent : ∀ index, index ∈ sent events ↔ index < chunks.length
  paced : Paced none events

/-- **Attachments make the round trip.** A new upload is committed as its bytes and read back as them;
and no state with a hole below a staged chunk is committed. -/
theorem attachments_make_the_round_trip {bytes : Bytes} {chunks : List (List Char)}
    {id name : List Char} {events : List Event} (h : Transfer bytes chunks id name events)
    {s : Uploads} (hnew : s.tmp id = none) (extraRoots : List (List Char)) :
    (∃ path s', (events.foldl (step chunks id) s).commit id name = (.ok path, s') ∧
      s'.files path = some bytes ∧
      ∃ text, s'.readBack path extraRoots maxReadChunks 0 = some text ∧
        Lib.Base64.decode text = some bytes) ∧
    ∀ (s : Uploads) (id name : List Char) (part : Nat × ChunkFile) (index : Nat),
      part ∈ chunkFiles ((s.tmp id).getD []) → index < part.1 →
      index ∉ (chunkFiles ((s.tmp id).getD [])).map (·.1) →
      ∃ error, s.commit id name = (.error error, s) := by
  constructor
  · obtain ⟨hsize, hcut, hfirst, hcount, hid, himage, hsent, hpace⟩ := h
    have hvisible : ∀ c ∈ chunks.flatten, 0x21 ≤ c.toNat ∧ c.toNat < 0x7F := by
      rw [hcut]
      exact fun c hc => Lib.Base64.visible_of_mem_encode hc
    have hlength : utf8Len chunks.flatten * 3 / 4 ≤ maxBytes := by
      rw [utf8Len_of_visible hvisible, hcut, Lib.Base64.length_encode]
      omega
    have hstart : s.InProgress id chunks [] none := ⟨hnew, rfl⟩
    obtain ⟨last, hrun⟩ := inProgress_run hid hcount hlength hstart hpace fun index hindex =>
      (hsent index).mp hindex
    have hzero : 0 ∈ sent events := (hsent 0).mpr (List.length_pos_of_ne_nil hfirst)
    generalize events.foldl (step chunks id) s = run at hrun ⊢
    cases last with
    | none =>
        have hnone : sent events = [] := by simpa using hrun.2
        rw [hnone] at hzero
        cases hzero
    | some last =>
        obtain ⟨files, htmp, hstaged, -, hdone⟩ := hrun
        have hall : ∀ index < chunks.length, chunkName index ∈ files.map (·.name) := by
          intro index hindex
          exact hdone index (by simpa using (hsent index).mpr hindex)
        have hcommit := commit_eq hid hcount hfirst htmp hstaged hall hcut (by omega) name
        refine ⟨_, _, hcommit, Function.update_self _ _ _, ?_⟩
        obtain ⟨mimeType, hmime⟩ := Option.ne_none_iff_exists'.mp himage
        have hinspect := inspect_eq
          (s := { run.setTmp id none with
            files := Function.update run.files (run.durablePath id name) (some bytes) })
          (slash_not_mem_durableName hid name) hmime (Function.update_self _ _ _) (by omega) extraRoots
        have hbudget : bytes.length - 0 < maxReadChunks * readChunkBytes := by
          have hbound : maxBytes < maxReadChunks * readChunkBytes := by decide
          omega
        exact ⟨_, readBack_eq hinspect (Nat.zero_le _) hbudget, Lib.Base64.decode_encode bytes⟩
  · intro s id name part index hpart hlt hmissing
    have hparts : sortedParts ((s.tmp id).getD []) ≠ [] :=
      List.ne_nil_of_mem ((perm_sortedParts _).mem_iff.mpr hpart)
    have hhole : assemble 0 (sortedParts ((s.tmp id).getD [])) = none := by
      by_contra hjoined
      have hrange := range_of_assemble hjoined
      have hperm := (perm_sortedParts ((s.tmp id).getD [])).map (·.1)
      rw [hrange, ← List.range_eq_range'] at hperm
      apply hmissing
      have hmem := List.mem_range.mp (hperm.mem_iff.mpr (List.mem_map_of_mem hpart))
      exact hperm.mem_iff.mp (List.mem_range.mpr (hlt.trans hmem))
    unfold commit
    dsimp only
    split_ifs
    · exact ⟨_, rfl⟩
    · rw [hhole]
      exact ⟨_, rfl⟩

def fresh : Uploads where
  root := "/uploads".toList
  readOnlyRoots := []
  tmp := fun _ => none
  files := fun _ => none

/-- Three chunks, one of them empty, sent out of order with a repetition and a restart. -/
theorem retried_upload_arrives :
    (∃ path s', ([.send 0 2, .send 5 0, .restart [], .send 5 1, .send 9 0].foldl
        (step [['A', 'Q', 'I'], [], ['D', 'B', 'A', '=', '=']] ['u', '-', '1']) fresh).commit
          ['u', '-', '1'] "photo 1.PNG".toList = (.ok path, s') ∧
      s'.files path = some [1, 2, 3, 4] ∧
      ∃ text, s'.readBack path [] maxReadChunks 0 = some text ∧
        Lib.Base64.decode text = some [1, 2, 3, 4]) ∧
    ∀ (s : Uploads) (id name : List Char) (part : Nat × ChunkFile) (index : Nat),
      part ∈ chunkFiles ((s.tmp id).getD []) → index < part.1 →
      index ∉ (chunkFiles ((s.tmp id).getD [])).map (·.1) →
      ∃ error, s.commit id name = (.error error, s) :=
  attachments_make_the_round_trip
    { size := by decide
      cut := by decide
      first := by decide
      count := by decide
      idAccepted := by decide
      image := by decide
      sent := fun index => by
        change index ∈ [2, 0, 1, 0] ↔ index < 3
        simp only [List.mem_cons, List.not_mem_nil, or_false]
        omega
      paced := by simp [Paced, stagingTtl] } rfl []

/-- A file that is no image is committed and not read back; after a pause, and with a chunk number
above the limit, the upload fails. -/
theorem limits_of_uploads :
    (∃ path s', ([.send 0 0].foldl (step [['A', 'Q', '=', '=']] ['u']) fresh).commit ['u']
        "notes.txt".toList = (.ok path, s') ∧ s'.readChunk path 0 [] = .error .unsupported) ∧
      (([.send 0 0, .send (stagingTtl + 1) 1].foldl
        (step [['A', 'Q', 'I', 'D'], ['B', 'A', '=', '=']] ['u']) fresh).commit ['u']
          "a.png".toList).1 = .error .missingChunk ∧
      (fresh.append 0 ['u'] ['A', 'Q', '=', '='] (some 1_000_001)).1 = .error .invalidIndex ∧
      (fresh.commit ['u'] "a.png".toList).1 = .error .unknown := by
  refine ⟨⟨_, _, rfl, ?_⟩, ?_, ?_, ?_⟩
  · rfl
  · rfl
  · rfl
  · rfl

end Uploads

end Zeron.Engine
