import PaiSho.Messages
import PaiSho.SurfaceManager

/-!
# The state files as text

`<key>.peers.json` and `<key>.surfaces.json` hold the pins and the surfaces as
pretty-printed JSON. A write truncates the file first, so one that fails halfway
leaves a first part of the new text, which is never read as a shorter list. So the
files behave as the lists of records that the rest of the development keeps in
their place, whatever text is in them at first. The text is `serde_json`'s, so it
is a parameter here.
-/

set_option autoImplicit false

namespace PaiSho.StateFiles
open Library.JsonTokens Library.JsonText Library.JsonRecords
open Library.EncodedText (utf8)
open Library.Traces
open Messages RecordFiles
open PinnedPeers (Pin Pins)
open SurfaceManager (IpAddr SurfaceRecord SurfaceStore)

/-- `serde_json::to_vec_pretty` and `from_slice` at a list of records. -/
structure Codec (ρ : Type) where
  toVecPretty : List ρ → List UInt8
  fromSlice : List UInt8 → Option (List ρ)

/-- A list is read back, and an array that breaks off is not JSON. -/
structure Codec.Documented {ρ : Type} (codec : Codec ρ) : Prop where
  reads_back : ∀ records, codec.fromSlice (codec.toVecPretty records) = some records
  broken_off : ∀ records written,
    codec.fromSlice ((codec.toVecPretty records).dropLast.take written) = none

structure DiskFile where
  path : String
  parent : String
  bytes : Option (List UInt8)
  deriving DecidableEq, Repr

/-- How `std::fs::write` goes, with the bytes that were written before it
failed. -/
inductive DiskWrite where
  | done
  | noDirectory
  | refused
  | torn (written : ℕ)
  deriving DecidableEq, Repr

structure DiskIo where
  read : Read := .done
  write : DiskWrite := .done
  deriving DecidableEq, Repr

def DiskWrite.kind : DiskWrite → Write
  | .done => .done
  | .noDirectory => .noDirectory
  | .refused => .refused
  | .torn _ => .torn

def DiskIo.kind (io : DiskIo) : Io := ⟨io.read, io.write.kind⟩

section
variable {ρ : Type} (codec : Codec ρ)

def DiskFile.load (f : DiskFile) (read : Read) : Except String (List ρ) :=
  match read, f.bytes with
  | .unseen, _ => .ok []
  | _, none => .ok []
  | .refused, _ => .error ("failed to read " ++ f.path)
  | .done, some bytes =>
    match codec.fromSlice bytes with
    | some records => .ok records
    | none => .error ("failed to parse " ++ f.path)

def DiskFile.save (f : DiskFile) (records : List ρ) : DiskWrite → DiskFile × Except String Unit
  | .done => ({ f with bytes := some (codec.toVecPretty records) }, .ok ())
  | .noDirectory => (f, .error ("failed to create " ++ f.parent))
  | .refused => (f, .error ("failed to write " ++ f.path))
  | .torn written =>
    ({ f with bytes := some ((codec.toVecPretty records).dropLast.take written) },
      .error ("failed to write " ++ f.path))

def DiskFile.update (f : DiskFile) (change : List ρ → List ρ) (io : DiskIo) :
    DiskFile × Except String Unit :=
  match f.load codec io.read with
  | .ok records => f.save codec (change records) io.write
  | .error e => (f, .error e)

def recordFile (f : DiskFile) : RecordFile ρ where
  path := f.path
  parent := f.parent
  content :=
    match f.bytes with
    | none => .absent
    | some bytes =>
      match codec.fromSlice bytes with
      | some records => .records records
      | none => .garbled

theorem recordFile_load (f : DiskFile) (read : Read) :
    (recordFile codec f).load read = f.load codec read := by
  unfold RecordFile.load recordFile DiskFile.load
  cases read with
  | unseen => rfl
  | refused =>
    cases f.bytes with
    | none => rfl
    | some bytes =>
      dsimp only
      cases codec.fromSlice bytes <;> rfl
  | done =>
    cases f.bytes with
    | none => rfl
    | some bytes =>
      dsimp only
      cases codec.fromSlice bytes <;> rfl

theorem recordFile_save (hcodec : codec.Documented) (f : DiskFile) (records : List ρ)
    (w : DiskWrite) : (recordFile codec f).save records w.kind =
      (recordFile codec (f.save codec records w).1, (f.save codec records w).2) := by
  cases w with
  | done => simp [DiskWrite.kind, RecordFile.save, DiskFile.save, recordFile, hcodec.reads_back]
  | noDirectory => rfl
  | refused => rfl
  | torn written =>
    simp [DiskWrite.kind, RecordFile.save, DiskFile.save, recordFile, hcodec.broken_off]

theorem recordFile_update (hcodec : codec.Documented) (f : DiskFile) (change : List ρ → List ρ)
    (io : DiskIo) : (recordFile codec f).update change io.kind =
      (recordFile codec (f.update codec change io).1, (f.update codec change io).2) := by
  have hload : (recordFile codec f).load io.kind.read = f.load codec io.read :=
    recordFile_load codec f io.read
  rw [RecordFile.update, DiskFile.update, hload]
  cases f.load codec io.read with
  | error e => rfl
  | ok records => exact recordFile_save codec hcodec f (change records) io.write

end

inductive PinOp where
  | add (key : String) (label : Option String)
  | remove (key : String)
  deriving DecidableEq, Repr

def PinOp.change : PinOp → List Pin → List Pin
  | .add key label, pins => pins.filter (fun pin => pin.key ≠ key) ++ [⟨key, label⟩]
  | .remove key, pins => pins.filter (fun pin => pin.key ≠ key)

def pinStep (codec : Codec Pin) (f : DiskFile) (op : PinOp × DiskIo) :
    DiskFile × Except String Unit :=
  f.update codec op.1.change op.2

def listedPin (pins : Pins) (op : PinOp × DiskIo) : Pins × Except String Unit :=
  match op.1 with
  | .add key label => pins.add key label op.2.kind
  | .remove key => pins.remove key op.2.kind

/-- Whatever text the pin file holds at first, and however its reads and writes
go, it stands for the list of pins that the operations on lists lead to, and every
operation ends the same way. -/
theorem pin_file_refines (codec : Codec Pin) (hcodec : codec.Documented) (f : DiskFile)
    (ops : List (PinOp × DiskIo)) :
    run listedPin (recordFile codec f) ops = recordFile codec (run (pinStep codec) f ops) ∧
      (trace listedPin (recordFile codec f) ops).map Event.output =
        (trace (pinStep codec) f ops).map Event.output ∧
      ∀ read, (recordFile codec (run (pinStep codec) f ops)).load read =
        (run (pinStep codec) f ops).load codec read := by
  have hstep : ∀ f op, listedPin (recordFile codec f) op =
      (recordFile codec (pinStep codec f op).1, (pinStep codec f op).2) := by
    rintro f ⟨op, io⟩
    cases op with
    | add key label => exact recordFile_update codec hcodec f (PinOp.add key label).change io
    | remove key => exact recordFile_update codec hcodec f (PinOp.remove key).change io
  obtain ⟨hrun, htrace⟩ := run_simulates (pinStep codec) listedPin (recordFile codec) hstep f ops
  exact ⟨hrun, htrace, recordFile_load codec _⟩

inductive SurfaceOp where
  | add (key : String) (ip : IpAddr) (name : Option String)
  | remove (key : String)
  deriving DecidableEq, Repr

def SurfaceOp.change : SurfaceOp → List SurfaceRecord → List SurfaceRecord
  | .add key ip name, records =>
    records.filter (fun record => record.key ≠ key) ++ [⟨key, ip, name⟩]
  | .remove key, records => records.filter (fun record => record.key ≠ key)

def surfaceStep (codec : Codec SurfaceRecord) (f : DiskFile) (op : SurfaceOp × DiskIo) :
    DiskFile × Except String Unit :=
  f.update codec op.1.change op.2

def listedSurface (store : SurfaceStore) (op : SurfaceOp × DiskIo) :
    SurfaceStore × Except String Unit :=
  match op.1 with
  | .add key ip name => store.add key ip name op.2.kind
  | .remove key => store.remove key op.2.kind

/-- The same for the file of surfaces. -/
theorem surface_file_refines (codec : Codec SurfaceRecord) (hcodec : codec.Documented)
    (f : DiskFile) (ops : List (SurfaceOp × DiskIo)) :
    run listedSurface (recordFile codec f) ops = recordFile codec (run (surfaceStep codec) f ops) ∧
      (trace listedSurface (recordFile codec f) ops).map Event.output =
        (trace (surfaceStep codec) f ops).map Event.output ∧
      ∀ read, (recordFile codec (run (surfaceStep codec) f ops)).load read =
        (run (surfaceStep codec) f ops).load codec read := by
  have hstep : ∀ f op, listedSurface (recordFile codec f) op =
      (recordFile codec (surfaceStep codec f op).1, (surfaceStep codec f op).2) := by
    rintro f ⟨op, io⟩
    cases op with
    | add key ip name =>
      exact recordFile_update codec hcodec f (SurfaceOp.add key ip name).change io
    | remove key => exact recordFile_update codec hcodec f (SurfaceOp.remove key).change io
  obtain ⟨hrun, htrace⟩ :=
    run_simulates (surfaceStep codec) listedSurface (recordFile codec) hstep f ops
  exact ⟨hrun, htrace, recordFile_load codec _⟩

section
variable {ρ : Type} (decode : Json → Option ρ) (encode : ρ → Json)

def jsonCodec : Codec ρ where
  toVecPretty records := utf8 (toPretty (listOf encode records))
  fromSlice := ofBytes (readList decode)

theorem json_reads_back (h : ∀ a, decode (encode a) = some a) (records : List ρ) :
    ofBytes (readList decode) (utf8 (toPretty (listOf encode records))) = some records := by
  have htext := ofText_toPretty _ _ (readList_listOf decode encode h) records [] (by simp)
  rw [List.append_nil] at htext
  rw [ofBytes, readBytes_utf8]
  exact htext

theorem json_broken_off (records : List ρ) (written : ℕ) :
    ofBytes (readList decode)
      ((utf8 (toPretty (listOf encode records))).dropLast.take written) = none := by
  generalize hbytes : utf8 (toPretty (listOf encode records)) = bytes
  have hnonempty : bytes ≠ [] := by
    intro hnil
    have htext : toPretty (listOf encode records) = [] := by
      have := congrArg Library.LossyText.fromUtf8Lossy (hbytes.trans hnil)
      rwa [Library.EncodedText.fromUtf8Lossy_utf8] at this
    have hread := read_print pretty pretty_blank 0 (listOf encode records) [] (by simp)
    rw [List.append_nil, ← toPretty, htext] at hread
    cases hread
  have hsplit : bytes = bytes.dropLast.take written ++
      (bytes.dropLast.drop written ++ [bytes.getLast hnonempty]) := by
    rw [← List.append_assoc, List.take_append_drop, List.dropLast_append_getLast]
  have hnone : readBytes (bytes.dropLast.take written) = none := by
    refine readBytes_cut (toPretty (listOf encode records)) _ _ (fun text rest heq hrest => ?_)
      (hbytes.trans hsplit) (by simp)
    exact read_arr_cut pretty pretty_blank 0 _ text rest heq hrest
  rw [ofBytes, hnone]
  rfl

theorem jsonCodec_documented (h : ∀ a, decode (encode a) = some a) :
    (jsonCodec decode encode).Documented :=
  ⟨json_reads_back decode encode h, json_broken_off decode encode⟩

end

def encodePin (pin : Pin) : Json :=
  .obj [("key", string pin.key), ("label", optionOf string pin.label)]

def decodePin (v : Json) : Option Pin := do
  let f ← readFields ["key", "label"] v
  let [key, label] := f.slots | none
  some ⟨← requiredField readString key, ← defaultedField none (readOption readString) label⟩

theorem pin_decode (pin : Pin) : decodePin (encodePin pin) = some pin := by
  rw [decodePin, encodePin, readFields_written]
  · simp [requiredField, defaultedField]
  · rfl
  · decide

def pinCodec : Codec Pin := jsonCodec decodePin encodePin

/-- A pin is filed, the next write tears, and another pin is filed by a daemon
that cannot see the file. -/
theorem overlooked_pin_file :
    (recordFile pinCodec (run (pinStep pinCodec) ⟨"key.peers.json", ".", none⟩
      [(.add "k1" none, {}), (.remove "k1", ⟨.done, .torn 1⟩),
        (.add "k2" (some "desk"), ⟨.unseen, .done⟩)])).content =
      .records [⟨"k2", some "desk"⟩] := by
  rw [← (pin_file_refines pinCodec (jsonCodec_documented _ _ pin_decode) _ _).1]
  rfl

section
variable (shown : IpAddr → String) (parseIp : String → Option IpAddr)

def encodeSurface (record : SurfaceRecord) : Json :=
  .obj [("key", string record.key), ("ip", string (shown record.ip)),
    ("name", optionOf string record.name)]

def decodeSurface (v : Json) : Option SurfaceRecord := do
  let f ← readFields ["key", "ip", "name"] v
  let [key, ip, name] := f.slots | none
  some ⟨← requiredField readString key,
    ← requiredField (fun v => (readString v).bind parseIp) ip,
    ← optionalField f.ordered readString name⟩

theorem surface_decode (hip : ∀ ip, parseIp (shown ip) = some ip) (record : SurfaceRecord) :
    decodeSurface parseIp (encodeSurface shown record) = some record := by
  rw [decodeSurface, encodeSurface, readFields_written]
  · simp [requiredField, optionalField, hip]
  · rfl
  · decide

end

def firstAddress : IpAddr := SurfaceManager.tunBase.host 2

def ipCode : IpAddr → ℕ
  | .v4 ip => ((ip.a.toNat*256 + ip.b.toNat)*256 + ip.c.toNat)*256 + ip.d.toNat
  | .v6 bits => 4294967296 + bits.toNat

def ipOf (n : ℕ) : IpAddr :=
  if n < 4294967296 then
    .v4 ⟨UInt8.ofNat (n/16777216), UInt8.ofNat (n/65536 % 256), UInt8.ofNat (n/256 % 256),
      UInt8.ofNat (n % 256)⟩
  else .v6 (BitVec.ofNat 128 (n - 4294967296))

theorem ipOf_ipCode (ip : IpAddr) : ipOf (ipCode ip) = ip := by
  cases ip with
  | v4 ip =>
    obtain ⟨a, b, c, d⟩ := ip
    have ha := a.toNat_lt
    have hb := b.toNat_lt
    have hc := c.toNat_lt
    have hd := d.toNat_lt
    have hbyte (x : UInt8) (n : ℕ) (h : n = x.toNat) : UInt8.ofNat n = x := by
      rw [h, UInt8.ofNat_toNat]
    rw [ipOf, ipCode, if_pos (by simp only; omega)]
    simp only [IpAddr.v4.injEq, SurfaceManager.Ipv4.mk.injEq]
    exact ⟨hbyte a _ (by omega), hbyte b _ (by omega), hbyte c _ (by omega), hbyte d _ (by omega)⟩
  | v6 bits =>
    rw [ipOf, ipCode, if_neg (by omega), Nat.add_sub_cancel_left, BitVec.ofNat_toNat]
    simp

def plainShown (ip : IpAddr) : String :=
  if ip = firstAddress then "10.99.1.2" else String.ofList ('#' :: Nat.toDigits 10 (ipCode ip))

def plainParse (s : String) : Option IpAddr :=
  if s = "10.99.1.2" then some firstAddress
  else some (ipOf (Nat.ofDigitChars 10 s.toList.tail 0))

theorem plainParse_plainShown (ip : IpAddr) : plainParse (plainShown ip) = some ip := by
  by_cases hfirst : ip = firstAddress
  · rw [plainShown, if_pos hfirst, plainParse, if_pos rfl, hfirst]
  · have hother : String.ofList ('#' :: Nat.toDigits 10 (ipCode ip)) ≠ "10.99.1.2" := by
      intro heq
      have := congrArg String.toList heq
      rw [String.toList_ofList] at this
      simp at this
    rw [plainShown, if_neg hfirst, plainParse, if_neg hother, String.toList_ofList, List.tail_cons,
      Nat.ofDigitChars_ten_toDigits, ipOf_ipCode]

def surfaceCodec : Codec SurfaceRecord :=
  jsonCodec (decodeSurface plainParse) (encodeSurface plainShown)

/-- A surface is filed, and the next write tears. -/
theorem torn_surface_file :
    (recordFile surfaceCodec (run (surfaceStep surfaceCodec) ⟨"key.surfaces.json", ".", none⟩
      [(.add "k1" firstAddress (some "broker"), {}),
        (.remove "k1", ⟨.done, .torn 1⟩)])).content = .garbled := by
  have hcodec := jsonCodec_documented _ _ (surface_decode plainShown plainParse plainParse_plainShown)
  rw [← (surface_file_refines surfaceCodec hcodec _ _).1]
  rfl

end PaiSho.StateFiles
