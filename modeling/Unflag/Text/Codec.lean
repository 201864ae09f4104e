/-
Codecs: what an encoding does, whatever it is.

A file is read and written by the codec that goes by the name of its encoding. Nothing is said of
which codecs there are; what every codec keeps to is part of being one. A strict and a lenient
reader never disagree on bytes that they both read, and no codec speaks for the file system.
The three encodings that are spelled out are such codecs.
-/
import Unflag.Fault
import Unflag.Text.Encoding

set_option autoImplicit false

namespace Unflag

/-- What an encoding does with bytes and with texts. -/
structure Codec where
  decode : Bytes → Except Fault Text
  /-- The text of bytes, with replacements for what is no text. Not every codec can do that. -/
  decodeLeniently : Bytes → Except Fault Text
  encode : Text → Except Fault Bytes
  agree : ∀ {bytes : Bytes} {strict lenient : Text}, decode bytes = .ok strict →
    decodeLeniently bytes = .ok lenient → lenient = strict
  notSystem : ∀ {bytes : Bytes} {f : Fault}, decodeLeniently bytes = .error f → f.family ≠ .system

/-- The codecs by their names. A look-up may end with a fault of its own. -/
structure Codecs where
  named : Text → Except Fault Codec
  notSystem : ∀ {name : Text} {f : Fault}, named name = .error f → f.family ≠ .system

namespace Codecs

/-- A file is not even opened under a name with a null character in it. -/
def allow (name : Text) : Except Fault Unit :=
  if name.contains '\x00' then .error (.noSuchValue "embedded null character") else .ok ()

theorem notSystem_of_allow {name : Text} {f : Fault} (h : allow name = .error f) :
    f.family ≠ .system := by
  rw [allow] at h
  split at h
  · cases h
    exact Fault.Family.noConfusion
  · cases h

/-- The codec of a name that is looked up for a file that has been opened. -/
def lookUp (codecs : Codecs) (name : Text) : Except Fault Codec := do
  allow name
  codecs.named name

end Codecs

/-! ## Three encodings -/

namespace Encoding

/-- A decoding fault as a fault of a file. -/
def decodeFault (e : Encoding) (f : DecodeFault) : Fault :=
  ⟨.decoding, "UnicodeDecodeError", f.message e⟩

/-- An encoding fault as a fault of a file. -/
def encodeFault (e : Encoding) (f : EncodeFault) : Fault :=
  ⟨.encoding, "UnicodeEncodeError", f.message e⟩

theorem lenient_of_joinPieces {ps : List Piece} {position : Nat} {text : Text}
    (h : joinPieces position ps = .ok text) :
    (ps.map fun p => match p.char with | .ok c => c | .error _ => replacement) = text := by
  induction ps generalizing position text with
  | nil =>
      cases h
      rfl
  | cons p ps ih =>
      rw [joinPieces] at h
      split at h
      · cases h
      · next c hc =>
        cases hrest : joinPieces (position + p.bytes.length) ps with
        | error f =>
            rw [hrest] at h
            cases h
        | ok rest =>
            rw [hrest] at h
            cases h
            rw [List.map_cons, hc, ih hrest]

/-- Without a bad piece, the lenient reader reads what the strict one reads. -/
theorem decodeLeniently_of_decode {e : Encoding} {bytes : Bytes} {text : Text}
    (h : e.decode bytes = .ok text) : e.decodeLeniently bytes = text :=
  lenient_of_joinPieces h

/-- The codec of an encoding. -/
def codec (e : Encoding) : Codec where
  decode bytes := (e.decode bytes).mapError e.decodeFault
  decodeLeniently bytes := .ok (e.decodeLeniently bytes)
  encode s := (e.encode s).mapError e.encodeFault
  agree := by
    intro bytes strict lenient hstrict hlenient
    cases hlenient
    cases hdecode : e.decode bytes with
    | error f =>
        rw [hdecode] at hstrict
        cases hstrict
    | ok text =>
        rw [hdecode] at hstrict
        cases hstrict
        exact decodeLeniently_of_decode hdecode
  notSystem := by
    intro bytes f h
    cases h

end Encoding

namespace Codecs

/-- The fault of an encoding that nobody knows. -/
def unknown (name : Text) : Fault :=
  ⟨.other, "LookupError", s!"unknown encoding: {String.ofList name}"⟩

/-- The codecs of the encodings that are spelled out. -/
def standard : Codecs where
  named name :=
    match Encoding.ofName? name with
    | some e => .ok e.codec
    | none => .error (unknown name)
  notSystem := by
    intro name f h
    split at h
    · cases h
    · cases h
      exact Fault.Family.noConfusion

end Codecs

end Unflag
