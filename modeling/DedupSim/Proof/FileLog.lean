import DedupSim.Proof.DataStream
import DedupSim.Spec.Main

/-!
# The file log

* `NamedRecord.code`: the records of the file log as a prefix code, and so **any list of
  records is read back from its bytes.**
-/

namespace DedupSim

open LittleEndian

/-- A record whose name is no longer than a `size_t` tells. -/
structure NamedRecord extends FileRecord where
  len : name.utf8ByteSize < 256 ^ 8

namespace Checksum

/-- The bytes of a checksum. -/
def code : PrefixCode Checksum UInt8 where
  encode k := k.toStream
  decode is :=
    match fromStream is with
    | (none, _) => none
    | (some k, rest) => some (k, rest)
  pos k := by
    rw [show k.toStream.length = cksumLen from k.len]
    decide
  decode_encode := by
    intro k rest
    rw [fromStream_toStream]
  encode_decode := by
    intro l k rest h
    rcases hk : fromStream l with ⟨- | k', rest'⟩
    · rw [hk] at h
      cases h
    · rw [hk] at h
      cases h
      exact fromStream_some hk

end Checksum

/-- The bytes of a name. -/
def nameBytes (name : String) : List UInt8 := name.toByteArray.data.toList

theorem length_nameBytes (name : String) : (nameBytes name).length = name.utf8ByteSize := rfl

theorem fromUTF8_nameBytes (name : String) :
    String.fromUTF8? ⟨(nameBytes name).toArray⟩ = some name := by
  have hdata : (⟨(nameBytes name).toArray⟩ : ByteArray) = name.toByteArray := by
    unfold nameBytes
    rw [Array.toArray_toList]
  rw [hdata]
  exact dif_pos name.isValidUTF8

theorem nameBytes_fromUTF8 {l : List UInt8} {name : String}
    (h : String.fromUTF8? ⟨l.toArray⟩ = some name) : l = nameBytes name := by
  unfold String.fromUTF8? at h
  split at h
  · cases h
    rfl
  · cases h

namespace NamedRecord

/-- The fields, as they are written. -/
def fields (r : NamedRecord) :
    {n : ℕ // n < 256 ^ 4} × {n : ℕ // n < 256 ^ 8} × Checksum ×
      {l : List UInt8 // l.length < 256 ^ 8} :=
  (⟨r.fileId.toNat, r.fileId.toNat_lt⟩, ⟨r.size.toNat, r.size.toNat_lt⟩, r.cksum,
    ⟨nameBytes r.name, r.len⟩)

/-- The record with these fields, if the name is one. -/
def ofFields (x : {n : ℕ // n < 256 ^ 4} × {n : ℕ // n < 256 ^ 8} × Checksum ×
      {l : List UInt8 // l.length < 256 ^ 8}) : Option NamedRecord :=
  match _h : String.fromUTF8? ⟨x.2.2.2.1.toArray⟩ with
  | none => none
  | some name =>
    some ⟨⟨UInt32.ofNat x.1.1, UInt64.ofNat x.2.1.1, x.2.2.1, name⟩, by
      rw [← length_nameBytes, ← nameBytes_fromUTF8 _h]
      exact x.2.2.2.2⟩

theorem ofFields_fields (r : NamedRecord) : ofFields r.fields = some r := by
  have hname := fromUTF8_nameBytes r.name
  unfold ofFields
  split
  · rename_i h
    rw [show r.fields.2.2.2.1 = nameBytes r.name from rfl, hname] at h
    cases h
  · rename_i name h
    rw [show r.fields.2.2.2.1 = nameBytes r.name from rfl, hname] at h
    cases h
    obtain ⟨⟨fileId, size, cksum, name⟩, len⟩ := r
    simp only [fields, UInt32.ofNat_toNat, UInt64.ofNat_toNat]

theorem fields_ofFields (x : {n : ℕ // n < 256 ^ 4} × {n : ℕ // n < 256 ^ 8} × Checksum ×
      {l : List UInt8 // l.length < 256 ^ 8}) (r : NamedRecord) (h : ofFields x = some r) :
    x = r.fields := by
  obtain ⟨⟨id, hid⟩, ⟨size, hsize⟩, cksum, bytes, hbytes⟩ := x
  unfold ofFields at h
  split at h
  · cases h
  · rename_i name hname
    cases h
    have hbytes' := nameBytes_fromUTF8 hname
    unfold fields
    simp only [UInt32.toNat_ofNat_of_lt' hid, UInt64.toNat_ofNat_of_lt' hsize, ← hbytes']

theorem sizeof_uint32 : 0 < 4 := by decide

theorem sizeof_uint64 : 0 < 8 := by decide

/-- The records of the file log as a prefix code. -/
def code : PrefixCode NamedRecord UInt8 :=
  ((PrefixCode.number 4 sizeof_uint32).seq ((PrefixCode.number 8 sizeof_uint64).seq
    (Checksum.code.seq ((PrefixCode.symbol UInt8).counted 8 sizeof_uint64)))).map
      fields ofFields ofFields_fields fields_ofFields

/-- It writes what `save_file` writes. -/
theorem code_encode (r : NamedRecord) :
    code.encode r = DedupMain.fileRecordBytes r.toFileRecord := by
  have hflat : (nameBytes r.name).flatMap (PrefixCode.symbol UInt8).encode = nameBytes r.name :=
    List.flatMap_singleton' _
  change leBytes 4 r.fileId.toNat ++ (leBytes 8 r.size.toNat ++ (r.cksum.toStream ++
    (leBytes 8 (nameBytes r.name).length ++ (nameBytes r.name).flatMap _))) = _
  rw [hflat, length_nameBytes]
  unfold DedupMain.fileRecordBytes
  rw [List.append_assoc, List.append_assoc, List.append_assoc]
  rfl

end NamedRecord

end DedupSim
