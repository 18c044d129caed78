import CaenDaq.BoardInfo
import CaenDaq.BoardStream

/-!
# The data-file header

The header of a run describes every board in one packed word. The writer is that of
`DataFileHeader.hpp`; the reader follows the layout that the comment there gives, and
takes nothing from the writer.
-/

namespace CaenDaq

open AggregateDecoder BoardStream

structure XdaqBoardDef where
  nsPerSample : BitVec 8 := 0
  nsPerTimetag : BitVec 8 := 0
  dppVersion : BitVec 8 := 0
  channels : BitVec 8 := 0
  boardRegId : BitVec 8 := 0
  deriving DecidableEq, Repr

namespace XdaqBoardDef

/-- Every field fits the bits it gets in the packed word. -/
structure Fits (b : XdaqBoardDef) : Prop where
  nsPerSample : b.nsPerSample.toNat < 2 ^ 6
  nsPerTimetag : b.nsPerTimetag.toNat < 2 ^ 6
  dppVersion : b.dppVersion.toNat < 2 ^ 4

end XdaqBoardDef

namespace DataFileHeader

def kXdaqKeyFrame : Word := 0xFA0201A0#32

/-- The firmware of the header, of which a reader knows two. -/
def xdaqDppVersion : DppType → BitVec 8
  | .psd => 1
  | _ => 0

def boardDefFrom (bi : BoardInfo) : XdaqBoardDef where
  nsPerSample := BitVec.ofNat 8 bi.nsPerSample
  nsPerTimetag := BitVec.ofNat 8 bi.nsPerTimetag
  dppVersion := xdaqDppVersion bi.dppType
  channels := BitVec.ofNat 8 bi.channels
  boardRegId := BitVec.ofNat 8 bi.boardRegId

def packBoardDef (b : XdaqBoardDef) : Word :=
  (b.nsPerSample.setWidth 32 &&& 0x3F#32)
    ||| (b.nsPerTimetag.setWidth 32 &&& 0x3F#32) <<< 6
    ||| (b.dppVersion.setWidth 32 &&& 0x0F#32) <<< 12
    ||| (b.channels.setWidth 32 &&& 0xFF#32) <<< 16
    ||| (b.boardRegId.setWidth 32 &&& 0xFF#32) <<< 24

/-- The words of the header. The run start stamps of the source are always 0. -/
def buildXdaqHeader (boards : List XdaqBoardDef) (epochStartTime : Word) (ts0 ts1 : Word := 0) :
    List Word :=
  let nb : Word := BitVec.ofNat 32 boards.length
  [6 + nb, kXdaqKeyFrame, nb, ts0, ts1, epochStartTime] ++ boards.map packBoardDef

def bits (lo w : ℕ) (word : Word) : BitVec 8 := (word.extractLsb' lo w).setWidth 8

def unpackBoardDef (word : Word) : XdaqBoardDef where
  nsPerSample := bits 0 6 word
  nsPerTimetag := bits 6 6 word
  dppVersion := bits 12 4 word
  channels := bits 16 8 word
  boardRegId := bits 24 8 word

structure RunFile where
  boards : List XdaqBoardDef
  ts0 : Word
  ts1 : Word
  epochStartTime : Word
  payload : List (BitVec 8)
  deriving DecidableEq, Repr

/-- The documented header in front of a payload, if it is there in full. -/
def readRunFile (bytes : List (BitVec 8)) : Option RunFile :=
  match wordsOf bytes with
  | hSize :: key :: nbBoards :: ts0 :: ts1 :: epochStartTime :: rest =>
    if key = kXdaqKeyFrame ∧ hSize.toNat = 6 + nbBoards.toNat ∧ nbBoards.toNat ≤ rest.length then
      some {
        boards := (rest.take nbBoards.toNat).map unpackBoardDef
        ts0 := ts0
        ts1 := ts1
        epochStartTime := epochStartTime
        payload := bytes.drop (4 * hSize.toNat) }
    else none
  | _ => none

theorem getLsbD_field (lo w i : ℕ) {mask : Word} (hmask : mask = BitVec.ofNat 32 (2 ^ w - 1))
    (x : BitVec 8) : ((x.setWidth 32 &&& mask) <<< lo).getLsbD i =
      (decide (i < 32) && decide (lo ≤ i) && decide (i < lo + w) && x.getLsbD (i - lo)) := by
  subst hmask
  simp only [BitVec.getLsbD_shiftLeft, BitVec.getLsbD_and, BitVec.getLsbD_setWidth,
    BitVec.getLsbD_ofNat, Nat.testBit_two_pow_sub_one]
  grind

theorem getLsbD_packBoardDef (b : XdaqBoardDef) (i : ℕ) :
    (packBoardDef b).getLsbD i = (decide (i < 32) &&
      (decide (i < 6) && b.nsPerSample.getLsbD i
        || decide (6 ≤ i) && decide (i < 12) && b.nsPerTimetag.getLsbD (i - 6)
        || decide (12 ≤ i) && decide (i < 16) && b.dppVersion.getLsbD (i - 12)
        || decide (16 ≤ i) && decide (i < 24) && b.channels.getLsbD (i - 16)
        || decide (24 ≤ i) && b.boardRegId.getLsbD (i - 24))) := by
  have hsample := getLsbD_field 0 6 i (show 0x3F#32 = _ from rfl) b.nsPerSample
  have htimetag := getLsbD_field 6 6 i (show 0x3F#32 = _ from rfl) b.nsPerTimetag
  have hdpp := getLsbD_field 12 4 i (show 0x0F#32 = _ from rfl) b.dppVersion
  have hchannels := getLsbD_field 16 8 i (show 0xFF#32 = _ from rfl) b.channels
  have hregId := getLsbD_field 24 8 i (show 0xFF#32 = _ from rfl) b.boardRegId
  rw [BitVec.shiftLeft_zero] at hsample
  simp only [packBoardDef, BitVec.getLsbD_or]
  rw [hsample, htimetag, hdpp, hchannels, hregId]
  grind

theorem bits_eq {lo w : ℕ} {word : Word} {x : BitVec 8} (hfits : x.toNat < 2 ^ w)
    (h : ∀ i < w, i < 8 → word.getLsbD (lo + i) = x.getLsbD i) : bits lo w word = x := by
  apply BitVec.eq_of_getLsbD_eq
  intro i hi
  simp only [bits, BitVec.getLsbD_setWidth, BitVec.getLsbD_extractLsb', hi, decide_true,
    Bool.true_and]
  by_cases hw : i < w
  · simp only [hw, decide_true, Bool.true_and]
    exact h i hw hi
  · have hlow := hfits.trans_le (Nat.pow_le_pow_right (by decide) (Nat.le_of_not_lt hw))
    have hhigh : x.getLsbD i = false := Nat.testBit_lt_two_pow hlow
    simp only [hw, decide_false, Bool.false_and, hhigh]

theorem unpack_pack {b : XdaqBoardDef} (h : b.Fits) : unpackBoardDef (packBoardDef b) = b := by
  have hsample : bits 0 6 (packBoardDef b) = b.nsPerSample :=
    bits_eq h.nsPerSample fun i hi _ => by rw [getLsbD_packBoardDef]; grind
  have htimetag : bits 6 6 (packBoardDef b) = b.nsPerTimetag :=
    bits_eq h.nsPerTimetag fun i hi _ => by rw [getLsbD_packBoardDef]; grind
  have hdpp : bits 12 4 (packBoardDef b) = b.dppVersion :=
    bits_eq h.dppVersion fun i hi _ => by rw [getLsbD_packBoardDef]; grind
  have hchannels : bits 16 8 (packBoardDef b) = b.channels :=
    bits_eq b.channels.isLt fun i hi _ => by rw [getLsbD_packBoardDef]; grind
  have hregId : bits 24 8 (packBoardDef b) = b.boardRegId :=
    bits_eq b.boardRegId.isLt fun i hi _ => by rw [getLsbD_packBoardDef]; grind
  rw [unpackBoardDef, hsample, htimetag, hdpp, hchannels, hregId]

theorem unpack_pack_all {boards : List XdaqBoardDef} (h : ∀ b ∈ boards, b.Fits) :
    (boards.map packBoardDef).map unpackBoardDef = boards := by
  induction boards with
  | nil => rfl
  | cons b boards ih =>
    rw [List.map_cons, List.map_cons, unpack_pack (h b List.mem_cons_self),
      ih fun c hc => h c (List.mem_cons_of_mem _ hc)]

@[simp] theorem buildXdaqHeader_length (boards : List XdaqBoardDef) (epochStartTime : Word) :
    (buildXdaqHeader boards epochStartTime).length = 6 + boards.length := by
  simp only [buildXdaqHeader, List.length_append, List.length_cons, List.length_nil,
    List.length_map]

/-- The reader finds what went into the header, and the payload behind it. -/
theorem readRunFile_header {boards : List XdaqBoardDef} (hcount : 6 + boards.length < 2 ^ 32)
    (hfits : ∀ b ∈ boards, b.Fits) (epochStartTime : Word) (payload : List (BitVec 8)) :
    readRunFile (bytesOf (buildXdaqHeader boards epochStartTime) ++ payload) =
      some ⟨boards, 0, 0, epochStartTime, payload⟩ := by
  have hnb : (BitVec.ofNat 32 boards.length : Word).toNat = boards.length :=
    Nat.mod_eq_of_lt (by omega)
  have hsize : (6 + BitVec.ofNat 32 boards.length : Word).toNat = 6 + boards.length := by
    rw [BitVec.toNat_add, hnb]
    exact Nat.mod_eq_of_lt hcount
  have hwords : wordsOf (bytesOf (buildXdaqHeader boards epochStartTime) ++ payload) =
      (6 + BitVec.ofNat 32 boards.length : Word) :: kXdaqKeyFrame ::
        BitVec.ofNat 32 boards.length :: 0 :: 0 :: epochStartTime ::
          (boards.map packBoardDef ++ wordsOf payload) := by
    rw [wordsOf_bytesOf]
    rfl
  have hroom : boards.length ≤ (boards.map packBoardDef ++ wordsOf payload).length := by
    rw [List.length_append, List.length_map]
    exact Nat.le_add_right _ _
  have htable : (boards.map packBoardDef ++ wordsOf payload).take boards.length =
      boards.map packBoardDef := List.take_left' (List.length_map _)
  have hpayload : (bytesOf (buildXdaqHeader boards epochStartTime) ++ payload).drop
      (4 * (6 + boards.length)) = payload :=
    List.drop_left' (by rw [bytesOf_length, buildXdaqHeader_length])
  rw [readRunFile, hwords]
  simp only [hnb, hsize, hroom, and_self, if_true, htable, unpack_pack_all hfits, hpayload]

end DataFileHeader
end CaenDaq
