import FreeRadius.Cbor.Decode

/-!
# CBOR encoding and decoding of pairs

A pair is a map of one entry: the number of its attribute, and its value or
the array of its children.
-/

namespace FreeRadius.Cbor

open Library

variable {ι : Type} [DecidableEq ι]

/-- What the CBOR functions ask a dictionary about its attributes `ι`. -/
structure Dict (ι : Type) where
  attr : ι → ℕ
  type : ι → FrType
  parent : ι → Option ι
  /-- `fr_dict_attr_child_by_num` -/
  childByNum : ι → ℕ → Option ι
  /-- `fr_dict_attr_ref` -/
  ref : ι → Option ι
  /-- `fr_dict_attr_unknown_typed_afrom_num` -/
  unknown : ι → ℕ → FrType → ι

/-- `fr_pair_t` -/
inductive FrPair (ι : Type) where
  | leaf (da : ι) (data : FrValueBox)
  | structural (da : ι) (vpGroup : List (FrPair ι))

def FrPair.da : FrPair ι → ι
  | .leaf da _ => da
  | .structural da _ => da

/-- `fr_type_is_structural` -/
def FrType.isStructural : FrType → Bool
  | .structural _ => true
  | _ => false

/-- The attribute that the children of a pair are children of: groups reparent
to the reference. The pairs of other types have no CBOR form. -/
def childrenParent (dict : Dict ι) (da : ι) (error : FrType → CborError) :
    Except Failure (Option ι) :=
  match dict.type da with
  | .structural .group => .ok (dict.ref da)
  | .structural .vendor | .structural .vsa | .structural .tlv => .ok (some da)
  | type => .error ⟨-1, some (error type)⟩

def encodeKey (dict : Dict ι) (dbuff : FrDbuff) (da : ι) : Except Failure FrDbuff := do
  let work ← frDbuffIn (frDbuff dbuff) [header cborMap 1]
  returnSlen work (cborEncodeInteger work cborInteger (dict.attr da))

mutual

def frCborEncodePair (dict : Dict ι) (dbuff : FrDbuff) :
    FrPair ι → Except Failure (FrDbuff × ℕ)
  | .leaf da data => do
    let work ← encodeKey dict dbuff da
    let work ← returnSlen work (frCborEncodeValueBox work data)
    .ok (frDbuffSet dbuff work)
  | .structural da vpGroup => do
    let work ← encodeKey dict dbuff da
    let parent ← childrenParent dict da .encodingType
    if vpGroup.length = 0 then
      let work ← frDbuffIn work [header cborFloat 22]
      .ok (frDbuffSet dbuff work)
    else
      let count := (vpGroup.filter fun child => dict.parent child.da = parent).length
      let work ← returnSlen work (cborEncodeInteger work cborArray count)
      let work ← encodeChildren dict parent work vpGroup
      .ok (frDbuffSet dbuff work)

def encodeChildren (dict : Dict ι) (parent : Option ι) (work : FrDbuff) :
    List (FrPair ι) → Except Failure FrDbuff
  | [] => .ok work
  | child :: rest =>
    if dict.parent child.da ≠ parent then encodeChildren dict parent work rest
    else do
      let work ← returnSlen work (frCborEncodePair dict work child)
      encodeChildren dict parent work rest

end

def decodeKey (dbuff : List UInt8) : Except Failure (ℕ × List UInt8) := do
  let (byte, work) ← frDbuffOut dbuff
  if byte ≠ header cborMap 1 then .error ⟨-1, some (.pairHeader byte)⟩
  else
    let (key, work) ← frDbuffOut work
    if majorOf key ≠ cborInteger then .error ⟨-1, some (.pairKey (majorOf key))⟩
    else returnIfNegative dbuff work (cborDecodeInteger (some 0) (infoOf key) work)

omit [DecidableEq ι] in
/-- The attribute of a pair. One that the dictionary does not know gets a type
from its value. -/
def decodeDa (dict : Dict ι) (dbuff work : List UInt8) (parent : ι) (value : ℕ) :
    Except Failure ι :=
  match dict.childByNum parent (value % 2 ^ 32) with
  | some da => .ok da
  | none =>
    let type := cborGuessType work true
    if type = .null then .error ⟨-(dbuff.length - work.length), some .noGuess⟩
    else .ok (dict.unknown parent (value % 2 ^ 32) type)

mutual

/-- `fr_cbor_decode_pair`, which appends the pair to `out`. -/
def frCborDecodePair (fl : FloatOps) (dict : Dict ι) :
    ℕ → List (FrPair ι) → List UInt8 → ι → Except Failure (List (FrPair ι) × List UInt8)
  | 0, _, _, _ => .error ⟨0, some .unfinished⟩
  | fuel + 1, out, dbuff, parent => do
    let (value, work) ← decodeKey dbuff
    let da ← decodeDa dict dbuff work parent value
    if (dict.type da).isStructural = false then do
      let (data, work) ←
        returnUnlessPositive dbuff work (frCborDecodeValueBox fl fuel work (dict.type da))
      frDbuffSetIn dbuff work (out ++ [.leaf da data])
    else do
      let parent ← childrenParent dict da .childType
      let (byte, work) ← frDbuffOut work
      if majorOf byte ≠ cborArray then
        if majorOf byte = cborFloat ∧ infoOf byte = 22 then
          frDbuffSetIn dbuff work (out ++ [.structural da []])
        else .error ⟨-1, some (.expectedArray (majorOf byte))⟩
      else do
        let ((count, indefinite), work) ← arrayCount dbuff work (some value) (infoOf byte)
        let (vpGroup, work) ← decodeChildren fl dict fuel [] dbuff work parent count indefinite
        frDbuffSetIn dbuff work (out ++ [.structural da vpGroup])

/-- The loop over the children of a pair, of which `value` remain. -/
def decodeChildren (fl : FloatOps) (dict : Dict ι) :
    ℕ → List (FrPair ι) → List UInt8 → List UInt8 → Option ι → ℕ → Bool →
      Except Failure (List (FrPair ι) × List UInt8)
  | 0, _, _, _, _, _, _ => .error ⟨0, some .unfinished⟩
  | _ + 1, vpGroup, _, work, _, 0, _ => .ok (vpGroup, work)
  | fuel + 1, vpGroup, dbuff, work, parent, value + 1, indefinite =>
    match work, parent with
    | [], _ => .error ⟨-(dbuff.length : ℤ), none⟩
    | _, none => .error ⟨0, some .notSet⟩
    | byte :: rest, some parentDa =>
      if byte = 0xff then
        if indefinite then .ok (vpGroup, rest)
        else .error ⟨-(dbuff.length - work.length), some .unexpectedBreak⟩
      else do
        let (vpGroup, work) ←
          returnUnlessPositive dbuff work (frCborDecodePair fl dict fuel vpGroup work parentDa)
        decodeChildren fl dict fuel vpGroup dbuff work parent value indefinite

end

end FreeRadius.Cbor
