import Onevcs.Export.ScanExact

/-!
# What is readable was read

`inspect` answers that a file is readable only where every layer in it was opened: each gzip stream
and each member of each archive decoded without an error, within the depth and within the bytes
allowed, every one of them scanned, and the innermost ones UTF-8 without a NUL.
-/

namespace Onevcs.Export

open Foundations (Text)

/-- A layer of a file: where it lies, and its bytes. -/
structure Layer where
  path : Text
  bytes : Bytes

/-- The bytes of a stream that does not fail. -/
def Stream.Decodes (stream : Stream) (bytes : Bytes) : Prop :=
  stream.fails = false ∧ stream.reads.flatten = bytes

section Opened

variable (decoders : Decoders) (locate : Text → Text)

mutual

/-- The layers of a file, all of them decoded, with so many left to the greatest depth. -/
inductive Opened : ℕ → Text → Bytes → List Layer → Prop
  | plain {left : ℕ} {path : Text} {bytes : Bytes} :
      ¬ gzipMagic <+: bytes → ¬ zipMagic <+: bytes → 0 ∉ bytes →
      (∃ text, bytes = Foundations.utf8.encodeAll text) →
      Opened left path bytes [⟨path, bytes⟩]
  | gzip {left : ℕ} {path : Text} {bytes decoded : Bytes} {layers : List Layer} :
      gzipMagic <+: bytes → (decoders.gzip bytes).Decodes decoded →
      Opened left (gzipPath path) decoded layers →
      Opened (left + 1) path bytes (⟨path, bytes⟩ :: layers)
  | zip {left : ℕ} {path : Text} {bytes : Bytes} {members : List Member} {layers : List Layer} :
      zipMagic <+: bytes → decoders.zip bytes = some members →
      OpenedMembers left path members layers →
      Opened (left + 1) path bytes (⟨path, bytes⟩ :: layers)

/-- The layers of an archive's members, each of them decoded. -/
inductive OpenedMembers : ℕ → Text → List Member → List Layer → Prop
  | nil {left : ℕ} {path : Text} : OpenedMembers left path [] []
  | cons {left : ℕ} {path name : Text} {found : Found} {stream : Stream} {decoded : Bytes}
      {rest : List Member} {layers more : List Layer} :
      found.name = some name → found.decoded = some stream → stream.Decodes decoded →
      Opened left (memberPath locate path name) decoded layers →
      OpenedMembers left path rest more →
      OpenedMembers left path (some found :: rest) (layers ++ more)

end

end Opened

/-! ## What a reader has spent and handed on -/

def size (layers : List Layer) : ℕ := (layers.map fun layer => layer.bytes.length).sum

@[simp] theorem size_nil : size [] = 0 := rfl

@[simp] theorem size_cons (layer : Layer) (layers : List Layer) :
    size (layer :: layers) = layer.bytes.length + size layers := rfl

@[simp] theorem size_append (layers more : List Layer) :
    size (layers ++ more) = size layers + size more := by
  simp [size]

/-- What the reader has spent is within the bounds. -/
structure Reader.Within (s : Reader) : Prop where
  file : s.bytes ≤ maxFileBytes
  exports : 0 < s.bytes → s.total ≤ maxExportBytes

/-- Between the readers, so many bytes were decoded, and the layers were scanned. -/
structure Reads (s s' : Reader) (decoded : ℕ) (layers : List Layer) : Prop where
  bytes : s'.bytes = s.bytes + decoded
  total : s'.total = s.total + decoded
  bounded : s'.bounded = s.bounded
  within : s.Within → s'.Within
  kept : s.checks ⊆ s'.checks
  scanned : ∀ layer ∈ layers, scan layer.path layer.bytes ⊆ s'.checks

namespace Reads

variable {s s' s'' : Reader} {decoded more : ℕ} {layers others : List Layer}

theorem refl (s : Reader) : Reads s s 0 [] where
  bytes := rfl
  total := rfl
  bounded := rfl
  within := id
  kept := List.Subset.refl _
  scanned _ hlayer := by cases hlayer

theorem trans (h : Reads s s' decoded layers) (h' : Reads s' s'' more others) :
    Reads s s'' (decoded + more) (layers ++ others) where
  bytes := by rw [h'.bytes, h.bytes, Nat.add_assoc]
  total := by rw [h'.total, h.total, Nat.add_assoc]
  bounded := h'.bounded.trans h.bounded
  within hwithin := h'.within (h.within hwithin)
  kept := List.Subset.trans h.kept h'.kept
  scanned := by
    intro layer hlayer
    obtain hlayer | hlayer := List.mem_append.mp hlayer
    · exact List.Subset.trans (h.scanned layer hlayer) h'.kept
    · exact h'.scanned layer hlayer

theorem hand (s : Reader) (checks : List Check) : Reads s (s.hand checks) 0 [] where
  bytes := rfl
  total := rfl
  bounded := rfl
  within hwithin := ⟨hwithin.file, hwithin.exports⟩
  kept := List.subset_append_left _ _
  scanned _ hlayer := by cases hlayer

theorem scan (s : Reader) (path : Text) (bytes : Bytes) :
    Reads s (s.hand (Export.scan path bytes)) 0 [⟨path, bytes⟩] where
  bytes := rfl
  total := rfl
  bounded := rfl
  within hwithin := ⟨hwithin.file, hwithin.exports⟩
  kept := List.subset_append_left _ _
  scanned layer hlayer := by
    obtain rfl := List.mem_singleton.mp hlayer
    exact List.subset_append_right _ _

theorem account {count : ℕ} (h : s.account count = (true, s')) : Reads s s' count [] := by
  rw [Reader.account] at h
  simp only at h
  split at h
  · cases h
  split at h
  · cases h
  case isFalse.isFalse htotal hfile =>
    obtain rfl := (Prod.ext_iff.mp h).2
    exact ⟨rfl, rfl, rfl, fun _ => ⟨Nat.not_lt.mp hfile, fun _ => Nat.not_lt.mp htotal⟩,
      List.Subset.refl _, fun _ hlayer => by cases hlayer⟩

theorem decodeLoop {path : Text} {fails : Bool} {reads : List Bytes} {result decoded : Bytes}
    (h : Reader.decodeLoop path fails s result reads = (some decoded, s')) :
    fails = false ∧ result ++ reads.flatten = decoded ∧ Reads s s' reads.flatten.length [] := by
  induction reads generalizing s result with
  | nil =>
    rw [Reader.decodeLoop] at h
    cases fails with
    | true => cases h
    | false =>
      cases h
      exact ⟨rfl, List.append_nil _, .refl _⟩
  | cons read rest ih =>
    rw [Reader.decodeLoop] at h
    rcases haccount : s.account read.length with ⟨within, next⟩
    rw [haccount] at h
    cases within with
    | false => cases h
    | true =>
      obtain ⟨hfails, hdecoded, hreads⟩ := ih h
      refine ⟨hfails, by rwa [List.flatten_cons, ← List.append_assoc], ?_⟩
      rw [List.flatten_cons, List.length_append]
      exact (account haccount).trans hreads

theorem decode {path : Text} {stream : Stream} {decoded : Bytes}
    (h : s.decode stream path = (some decoded, s')) :
    stream.Decodes decoded ∧ Reads s s' decoded.length [] := by
  rw [Reader.decode] at h
  split at h
  · cases h
  · obtain ⟨hfails, hdecoded, hreads⟩ := decodeLoop h
    rw [List.nil_append] at hdecoded
    exact ⟨⟨hfails, hdecoded⟩, hdecoded ▸ hreads⟩

end Reads

section Layers

variable {decoders : Decoders} {locate : Text → Text} {s s' : Reader}

/-- What is asked of reading a layer: where it is readable, it was opened. -/
def Opens (decoders : Decoders) (locate : Text → Text) (left : ℕ)
    (read : Reader → Bytes → Text → Bool × Reader) : Prop :=
  ∀ {s bytes path s'}, s.bounded = false → read s bytes path = (true, s') →
    ∃ inner, Opened decoders locate left path bytes (⟨path, bytes⟩ :: inner) ∧
      Reads s s' (size inner) (⟨path, bytes⟩ :: inner)

theorem openMember_opened {left : ℕ} {read : Reader → Bytes → Text → Bool × Reader}
    (hread : Opens decoders locate left read) {path : Text} {member : Member}
    (hbounded : s.bounded = false) (h : openMember locate read s path member = (true, s')) :
    ∃ found name stream decoded layers, member = some found ∧ found.name = some name ∧
      found.decoded = some stream ∧ stream.Decodes decoded ∧
      Opened decoders locate left (memberPath locate path name) decoded layers ∧
      Reads s s' (size layers) layers := by
  cases member with
  | none => cases h
  | some found =>
    rw [openMember] at h
    cases hname : found.name with
    | none =>
      rw [hname] at h
      cases h
    | some name =>
      simp only [hname] at h
      split at h
      -- a member that cannot be decoded is never readable
      · split at h <;> cases h
      · split at h
        · cases h
        · rename_i stream hstream
          split at h
          case h_1 decoded next hdecode =>
            obtain ⟨hdecodes, hdecoded⟩ := Reads.decode hdecode
            have hfirst := (Reads.hand _ _).trans hdecoded
            obtain ⟨inner, hopened, hinner⟩ := hread (hfirst.bounded.trans hbounded) h
            refine ⟨found, name, stream, decoded, _, rfl, hname, hstream, hdecodes, hopened, ?_⟩
            simpa using hfirst.trans hinner
          case h_2 => cases h

theorem openMembers_not_readable (locate : Text → Text)
    (read : Reader → Bytes → Text → Bool × Reader) (path : Text) (s : Reader)
    (members : List Member) : (openMembers locate read path s false members).1 = false := by
  induction members generalizing s with
  | nil => rfl
  | cons member rest ih =>
    rw [openMembers]
    simp only [Bool.false_and]
    split
    · rfl
    · exact ih _

/-- The members of an archive that is readable were decoded, and opened. -/
theorem openMembers_opened {left : ℕ} {read : Reader → Bytes → Text → Bool × Reader}
    (hread : Opens decoders locate left read) {path : Text} {members : List Member} {readable : Bool}
    (hbounded : s.bounded = false)
    (h : openMembers locate read path s readable members = (true, s')) :
    readable = true ∧ ∃ layers, OpenedMembers decoders locate left path members layers ∧
      Reads s s' (size layers) layers := by
  induction members generalizing s readable with
  | nil =>
    rw [openMembers] at h
    cases h
    exact ⟨rfl, [], .nil, .refl _⟩
  | cons member rest ih =>
    rw [openMembers] at h
    rcases hmember : openMember locate read s path member with ⟨opened, next⟩
    simp only [hmember] at h
    cases opened with
    | false =>
      -- a member that was not readable stays counted
      rw [Bool.and_false] at h
      split at h
      · cases h
      · have hnot := openMembers_not_readable locate read path next rest
        rw [h] at hnot
        cases hnot
    | true =>
      obtain ⟨found, name, stream, decoded, layers, rfl, hname, hstream, hdecodes, hopened,
        hreads⟩ := openMember_opened hread hbounded hmember
      have hnext : next.bounded = false := hreads.bounded.trans hbounded
      rw [if_neg (by simp [hnext]), Bool.and_true] at h
      obtain ⟨hreadable, more, hmore, hrest⟩ := ih hnext h
      refine ⟨hreadable, _, .cons hname hstream hdecodes hopened hmore, ?_⟩
      rw [size_append]
      exact hreads.trans hrest

theorem plain_opened {left : ℕ} {bytes : Bytes} {path : Text} (hgzip : ¬ gzipMagic <+: bytes)
    (hzip : ¬ zipMagic <+: bytes) (h : (!bytes.contains 0 && (fromUtf8 bytes).isOk) = true) :
    Opened decoders locate left path bytes [⟨path, bytes⟩] := by
  obtain ⟨hnul, hutf8⟩ := (Bool.and_eq_true _ _).mp h
  refine .plain hgzip hzip (by simpa using hnul) ?_
  cases hread : fromUtf8 bytes with
  | ok text => exact ⟨text, fromUtf8_ok_iff.mp hread⟩
  | error error =>
    rw [hread] at hutf8
    cases hutf8

theorem layer_opened (left : ℕ) : Opens decoders locate left (layer decoders locate left) := by
  induction left with
  | zero =>
    intro s bytes path s' hbounded h
    rw [layer] at h
    split at h
    · cases h
    split at h
    · cases h
    case isFalse.isFalse hgzip hzip =>
      obtain ⟨hplain, rfl⟩ := Prod.ext_iff.mp h
      refine ⟨[], plain_opened ?_ ?_ hplain, .scan _ _ _⟩
      · exact fun hprefix => hgzip (List.isPrefixOf_iff_prefix.mpr hprefix)
      · exact fun hprefix => hzip (List.isPrefixOf_iff_prefix.mpr hprefix)
  | succ left ih =>
    intro s bytes path s' hbounded h
    rw [layer] at h
    split at h
    case isTrue hgzip =>
      split at h
      case h_1 decoded next hdecode =>
        obtain ⟨hdecodes, hdecoded⟩ := Reads.decode hdecode
        have hfirst := (Reads.scan s path bytes).trans hdecoded
        obtain ⟨inner, hopened, hinner⟩ := ih (hfirst.bounded.trans hbounded) h
        refine ⟨_, .gzip (List.isPrefixOf_iff_prefix.mp hgzip) hdecodes hopened, ?_⟩
        simpa using hfirst.trans hinner
      case h_2 => cases h
    split at h
    case isFalse.isTrue hzip =>
      split at h
      · cases h
      · rename_i members hmembers
        have hscanned := Reads.scan s path bytes
        obtain ⟨-, layers, hlayers, hreads⟩ :=
          openMembers_opened ih (hscanned.bounded.trans hbounded) h
        refine ⟨layers, .zip (List.isPrefixOf_iff_prefix.mp hzip) hmembers hlayers, ?_⟩
        simpa using hscanned.trans hreads
    case isFalse.isFalse hgzip hzip =>
      obtain ⟨hplain, rfl⟩ := Prod.ext_iff.mp h
      refine ⟨[], plain_opened ?_ ?_ hplain, .scan _ _ _⟩
      · exact fun hprefix => hgzip (List.isPrefixOf_iff_prefix.mpr hprefix)
      · exact fun hprefix => hzip (List.isPrefixOf_iff_prefix.mpr hprefix)

/-- What is readable was opened within the bounds, and every layer of it was scanned. -/
theorem inspect_readable {budget : Budget} {bytes : Bytes} {path : Text}
    (h : (inspect decoders locate budget bytes path).1 = .readable) :
    ∃ inner, Opened decoders locate maxDepth (locate path) bytes (⟨locate path, bytes⟩ :: inner) ∧
      size inner ≤ maxFileBytes ∧ (0 < size inner → budget.bytes + size inner ≤ maxExportBytes) ∧
      ∀ layer ∈ (⟨locate path, bytes⟩ : Layer) :: inner,
        scan layer.path layer.bytes ⊆ (inspect decoders locate budget bytes path).2.checks := by
  rcases hlayer : layer decoders locate maxDepth ⟨0, budget.bytes, budget.stopped, false, []⟩ bytes
    (locate path) with ⟨readable, last⟩
  have hinspect : inspect decoders locate budget bytes path =
      (if last.bounded then .boundExceeded else if readable then .readable else .isOpaque, last) := by
    rw [inspect, hlayer]
  rw [hinspect] at h ⊢
  cases readable with
  | false =>
    cases hbounded : last.bounded <;> simp [hbounded] at h
  | true =>
    obtain ⟨inner, hopened, hreads⟩ := layer_opened maxDepth rfl hlayer
    have hwithin := hreads.within ⟨Nat.zero_le _, fun hpos => absurd hpos (Nat.lt_irrefl 0)⟩
    have hbytes : last.bytes = size inner := hreads.bytes.trans (Nat.zero_add _)
    have htotal : last.total = budget.bytes + size inner := hreads.total
    refine ⟨inner, hopened, hbytes ▸ hwithin.file, fun hpos => ?_, hreads.scanned⟩
    rw [← htotal]
    exact hwithin.exports (hbytes ▸ hpos)

end Layers

/-- Every text of four characters or more that is written in a layer's bytes, none of them a control
character, is handed on where it is written; whatever a match spans of what is handed on, it is
located where that is written; and a file that is readable was opened to its innermost layers within
the bounds, and every layer scanned. -/
theorem screening_hides_no_text (decoders : Decoders) (locate : Text → Text) (budget : Budget)
    (path : Text) (bytes : Bytes) :
    (∀ (encoding : Encoding) (text : Text) (offset : ℕ), 4 ≤ text.length →
      (∀ c ∈ text, isControl c = false) → OccursAt bytes (encoding.code.encodeAll text) offset →
      ∃ check ∈ scan path bytes, check.location.encoding = encoding ∧ ∃ pre post,
        check.text = pre ++ text ++ post ∧
        contentAt check.location check.text (byteLength pre) =
          locationText path encoding offset) ∧
    (∀ check ∈ scan path bytes, ∀ pre part post, check.text = pre ++ part ++ post →
      ∃ offset, contentAt check.location check.text (byteLength pre) =
          locationText path check.location.encoding offset ∧
        OccursAt bytes (check.location.encoding.code.encodeAll part) offset) ∧
    ((inspect decoders locate budget bytes path).1 = .readable →
      ∃ inner, Opened decoders locate maxDepth (locate path) bytes (⟨locate path, bytes⟩ :: inner) ∧
        size inner ≤ maxFileBytes ∧ (0 < size inner → budget.bytes + size inner ≤ maxExportBytes) ∧
        ∀ layer ∈ (⟨locate path, bytes⟩ : Layer) :: inner,
          scan layer.path layer.bytes ⊆ (inspect decoders locate budget bytes path).2.checks) :=
  ⟨fun _ _ _ hlong hprintable hoccurs => scan_complete hlong hprintable hoccurs,
    fun _ hcheck _ _ _ htext => scan_exact hcheck htext, inspect_readable⟩

def acme : Text := "acme".toList

/-- A gzip layer whose bytes hold a name after one that is not UTF-8. -/
def acmeGzip : Bytes := gzipMagic ++ 0xFF :: Foundations.utf8.encodeAll acme

/-- A decoder that reads the name from every gzip stream, and no archive. -/
def acmeDecoders : Decoders :=
  ⟨fun _ => ⟨[Foundations.utf8.encodeAll acme], false⟩, fun _ => none⟩

/-- The name is handed on where it lies in the gzip layer, and the layer is opened. -/
theorem screening_hides_no_text_gzip :
    (∃ check ∈ scan acme acmeGzip, ∃ pre post, check.text = pre ++ acme ++ post ∧
      contentAt check.location check.text (byteLength pre) = locationText acme .utf8 3 ∧
      ∃ offset, contentAt check.location check.text (byteLength pre) =
          locationText acme check.location.encoding offset ∧
        OccursAt acmeGzip (check.location.encoding.code.encodeAll acme) offset) ∧
    ∃ inner, Opened acmeDecoders id maxDepth acme acmeGzip (⟨acme, acmeGzip⟩ :: inner) := by
  obtain ⟨hcomplete, hexact, hread⟩ :=
    screening_hides_no_text acmeDecoders id ⟨0, false⟩ acme acmeGzip
  have hall : acme.all (fun c => !isControl c) = true := by decide +kernel
  have hprintable : ∀ c ∈ acme, isControl c = false := fun c hc => by
    simpa using List.all_eq_true.mp hall c hc
  obtain ⟨check, hcheck, -, pre, post, htext, hlocated⟩ := hcomplete .utf8 acme 3
    (by decide +kernel) hprintable ⟨[0x1F, 0x8B, 0xFF], [], by decide +kernel, rfl⟩
  obtain ⟨inner, hopened, -⟩ := hread (by decide +kernel)
  exact ⟨⟨check, hcheck, pre, post, htext, hlocated, hexact check hcheck pre acme post htext⟩,
    inner, hopened⟩

end Onevcs.Export
