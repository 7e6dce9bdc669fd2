import GcLite.Heap
import GcLite.Library.BitRecord
import GcLite.Mem

/-!
# The words of a header

`node.rs` keeps what a header says in three words. `attrs` has the colour in bits 0 and 1, the flags
in bits 2 to 7, the type in bits 8 to 15 and a sentinel in bits 24 to 31; the low half of
`partition` is the partition's id; `weak_id` is the raw weak id. Here are the functions on these
words as the source has them, next to the header that the words stand for.

## Main definitions

* `GcNodeFlag`, `PackedHead` — the flags, and the words
* `PackedHead.color`, `PackedHead.setColor`, … — the methods
* `PackedHead.init` — the words that an allocation writes
* `PackedHead.unpack` — the header that the words stand for, if the colour is one
* `HeadCall` — a call of a method that writes, on the words and on the header

## Main results

* `unpack_init`, `unpack_run` — the words of a new header, and those after a call, stand for what
  they should
* `Sealed.run` — no call touches the sentinel or the reserved bits
-/

namespace GcLite

/-! ### Colours and flags -/

/-- `color as u32`. -/
def GcTriColor.toU32 : GcTriColor → BitVec 32
  | .white => 0b00#32
  | .gray => 0b01#32
  | .black => 0b10#32

/-- `GcTriColor::try_from`; `none` is the error. -/
def GcTriColor.tryFrom (value : BitVec 32) : Option GcTriColor :=
  if value = 0b00#32 then some .white
  else if value = 0b01#32 then some .gray
  else if value = 0b10#32 then some .black
  else none

@[simp] theorem GcTriColor.tryFrom_toU32 (c : GcTriColor) : tryFrom c.toU32 = some c := by
  cases c <;> rfl

/-- The flags of `attrs`. -/
inductive GcNodeFlag
  /-- The node's block is an arena's. -/
  | arenaAlloc
  /-- The node is on a gray list. -/
  | grayListed
  /-- The node is a root. -/
  | root
  /-- The node is in a scope. -/
  | isLocal
  /-- The node has been visited by the traversal that is going on. -/
  | traverseVisited
deriving DecidableEq, Repr

/-- The bit of a flag. -/
def GcNodeFlag.bits : GcNodeFlag → BitVec 8
  | .arenaAlloc => 1#8 <<< 2
  | .grayListed => 1#8 <<< 3
  | .root => 1#8 <<< 5
  | .isLocal => 1#8 <<< 6
  | .traverseVisited => 1#8 <<< 7

/-- The place of a flag's bit. -/
def GcNodeFlag.index : GcNodeFlag → ℕ
  | .arenaAlloc => 2
  | .grayListed => 3
  | .root => 5
  | .isLocal => 6
  | .traverseVisited => 7

/-- All bits that are flags. -/
def GcNodeFlag.all : BitVec 8 :=
  arenaAlloc.bits ||| grayListed.bits ||| root.bits ||| isLocal.bits ||| traverseVisited.bits

/-- `COLOR_MASK` -/
def colorMask : BitVec 32 := 0b11#32

/-! ### The words -/

/-- The words of a header, without the pointer to the next node. -/
structure PackedHead where
  /-- Colour, flags, type and sentinel. -/
  attrs : BitVec 32
  /-- The partition id, in the low half. -/
  partition : BitVec 32
  /-- The raw weak id. -/
  weakId : BitVec 32
deriving DecidableEq

namespace PackedHead

variable {p : PackedHead} {f g : GcNodeFlag} {c : GcTriColor} {b : Bool}

/-- Bits 8 to 15. -/
def dtype (p : PackedHead) : BitVec 8 := ((p.attrs &&& 0xFF00#32) >>> 8).setWidth 8

/-- `none` is the panic of the `unwrap`. -/
def color (p : PackedHead) : Option GcTriColor := GcTriColor.tryFrom (p.attrs &&& colorMask)

/-- Other bits under the mask. -/
def setColor (c : GcTriColor) (p : PackedHead) : PackedHead :=
  { p with attrs := (p.attrs &&& ~~~colorMask) ||| c.toU32 }

/-- `from_bits_truncate` of the low byte. -/
def flags (p : PackedHead) : BitVec 8 := p.attrs.setWidth 8 &&& GcNodeFlag.all

/-- `insert_flag` -/
def insertFlag (f : GcNodeFlag) (p : PackedHead) : PackedHead :=
  { p with attrs := p.attrs ||| f.bits.setWidth 32 }

/-- `remove_flag` -/
def removeFlag (f : GcNodeFlag) (p : PackedHead) : PackedHead :=
  { p with attrs := p.attrs &&& ~~~(f.bits.setWidth 32) }

/-- All bits of the flag are set. -/
def containsFlag (p : PackedHead) (f : GcNodeFlag) : Bool :=
  (p.attrs &&& f.bits.setWidth 32) == f.bits.setWidth 32

/-- `ROOT` -/
def isRoot (p : PackedHead) : Bool := p.containsFlag .root

/-- `LOCAL` -/
def isLocal (p : PackedHead) : Bool := p.containsFlag .isLocal

/-- `intersects` of the flags. -/
def isRootOrLocal (p : PackedHead) : Bool :=
  p.flags &&& (GcNodeFlag.root.bits ||| GcNodeFlag.isLocal.bits) != 0#8

/-- `clear_local_flag` -/
def clearLocalFlag (p : PackedHead) : PackedHead := p.removeFlag .isLocal

/-- `TRAVERSE_VISITED` -/
def traverseVisited (p : PackedHead) : Bool := p.containsFlag .traverseVisited

/-- `set_traverse_visited` -/
def setTraverseVisited (visited : Bool) (p : PackedHead) : PackedHead :=
  if visited then p.insertFlag .traverseVisited else p.removeFlag .traverseVisited

/-- Any bit of the flag is set. -/
def isGrayListed (p : PackedHead) : Bool :=
  (p.attrs &&& GcNodeFlag.grayListed.bits.setWidth 32) != 0#32

/-- `set_gray_listed` -/
def setGrayListed (b : Bool) (p : PackedHead) : PackedHead :=
  if b then { p with attrs := p.attrs ||| GcNodeFlag.grayListed.bits.setWidth 32 }
  else { p with attrs := p.attrs &&& ~~~(GcNodeFlag.grayListed.bits.setWidth 32) }

/-- The low half of the word. -/
def partitionId (p : PackedHead) : BitVec 16 := (p.partition &&& 0x0000FFFF#32).setWidth 16

/-- What `alloc_node_mem` writes. -/
def init (partitionId : BitVec 16) (gcType : BitVec 8) (arenaAlloc : Bool) : PackedHead where
  attrs :=
    let attrs := 0xFF000000#32 ||| (gcType.setWidth 32 <<< 8)
    if arenaAlloc then attrs ||| GcNodeFlag.arenaAlloc.bits.setWidth 32 else attrs
  partition := partitionId.setWidth 32
  weakId := 0#32

/-- The header that the words stand for. -/
def unpack (p : PackedHead) : Option GcHead :=
  p.color.map fun c => {
    dtype := p.dtype.toNat
    color := c
    arenaAlloc := p.containsFlag .arenaAlloc
    grayListed := p.isGrayListed
    isRoot := p.isRoot
    isLocal := p.isLocal
    traverseVisited := p.traverseVisited
    partitionId := p.partitionId.toNat
    weakId := ⟨p.weakId.toNat⟩ }

/-! ### The fields of `attrs` -/

/-- What the bits of `attrs` are for. -/
inductive Field
  /-- Bits 0 and 1. -/
  | color
  /-- One of the flags. -/
  | flag (f : GcNodeFlag)
  /-- Bits 8 to 15. -/
  | dtype
  /-- The sentinel and the reserved bits. -/
  | rest
deriving DecidableEq

/-- The bits of a field. -/
def Field.mask : Field → BitVec 32
  | .color => colorMask
  | .flag f => f.bits.setWidth 32
  | .dtype => 0xFF00#32
  | .rest => 0xFFFF0010#32

/-- The fields share no bit. -/
def attrsRecord : BitRecord Field 32 where
  mask := Field.mask
  apart := by
    intro i j hij
    cases i with
    | flag f =>
      cases j with
      | flag g => cases f <;> cases g <;> first | rfl | exact absurd rfl hij
      | _ => cases f <;> rfl
    | _ =>
      cases j with
      | flag g => cases g <;> rfl
      | _ => first | rfl | exact absurd rfl hij

theorem mask_flag (f : GcNodeFlag) : attrsRecord.mask (.flag f) = BitVec.twoPow 32 f.index := by
  cases f <;> rfl

/-- A flag is set if its bit is. -/
theorem containsFlag_eq : p.containsFlag f = p.attrs.getLsbD f.index := by
  have hmask : f.bits.setWidth 32 = BitVec.twoPow 32 f.index := mask_flag f
  rw [containsFlag, hmask, BitVec.and_twoPow]
  cases p.attrs.getLsbD f.index with
  | true => simp
  | false => cases f <;> rfl

/-- The method for the gray list's flag asks whether the bit is there in another way. -/
theorem isGrayListed_eq : p.isGrayListed = p.containsFlag .grayListed := by
  have hmask : GcNodeFlag.grayListed.bits.setWidth 32 = BitVec.twoPow 32 3 := rfl
  rw [containsFlag_eq, isGrayListed, hmask, BitVec.and_twoPow, GcNodeFlag.index]
  cases p.attrs.getLsbD 3 <;> rfl

/-- And so does the one for two flags at once. -/
theorem isRootOrLocal_eq : p.isRootOrLocal = (p.isRoot || p.isLocal) := by
  have hbit : ∀ f : GcNodeFlag, p.flags.getLsbD f.index = p.containsFlag f := by
    intro f
    rw [containsFlag_eq, flags, BitVec.getLsbD_and, BitVec.getLsbD_setWidth]
    cases f <;> simp [GcNodeFlag.index, GcNodeFlag.all, GcNodeFlag.bits]
  have hroot : GcNodeFlag.root.bits = BitVec.twoPow 8 GcNodeFlag.root.index := rfl
  have hlocal : GcNodeFlag.isLocal.bits = BitVec.twoPow 8 GcNodeFlag.isLocal.index := rfl
  rw [isRootOrLocal, hroot, hlocal, BitVec.and_or_distrib_left, BitVec.and_twoPow,
    BitVec.and_twoPow, hbit, hbit, isRoot, isLocal]
  cases p.containsFlag .root <;> cases p.containsFlag .isLocal <;> rfl

/-- Other bits for a field. -/
def write (i : Field) (v : BitVec 32) (p : PackedHead) : PackedHead :=
  { p with attrs := attrsRecord.set i v p.attrs }

theorem setColor_eq : p.setColor c = p.write .color c.toU32 := rfl

theorem insertFlag_eq : p.insertFlag f = p.write (.flag f) (attrsRecord.mask (.flag f)) := by
  rw [write, ← BitRecord.or_mask]
  rfl

theorem removeFlag_eq : p.removeFlag f = p.write (.flag f) 0#32 := by
  rw [write, ← BitRecord.and_not_mask]
  rfl

theorem setGrayListed_eq : p.setGrayListed b =
    if b then p.insertFlag .grayListed else p.removeFlag .grayListed := rfl

theorem fits_toU32 (c : GcTriColor) : attrsRecord.Fits .color c.toU32 := by cases c <;> rfl

section

variable {i : Field} {v : BitVec 32} (hv : attrsRecord.Fits i v)
include hv

theorem dtype_write (hi : i ≠ .dtype) : (p.write i v).dtype = p.dtype :=
  congrArg (fun x : BitVec 32 => (x >>> 8).setWidth 8) (BitRecord.get_set_of_ne hi hv)

theorem color_write (hi : i ≠ .color) : (p.write i v).color = p.color :=
  congrArg GcTriColor.tryFrom (BitRecord.get_set_of_ne hi hv)

theorem containsFlag_write (hi : i ≠ .flag f) : (p.write i v).containsFlag f = p.containsFlag f :=
  congrArg (fun x => x == f.bits.setWidth 32) (BitRecord.get_set_of_ne hi hv)

end

@[simp] theorem color_setColor : (p.setColor c).color = some c := by
  have hget : attrsRecord.get .color (p.setColor c).attrs = c.toU32 :=
    BitRecord.get_set_self (fits_toU32 c)
  exact (congrArg GcTriColor.tryFrom hget).trans (GcTriColor.tryFrom_toU32 c)

theorem containsFlag_insertFlag :
    (p.insertFlag f).containsFlag g = (decide (g = f) || p.containsFlag g) := by
  rw [insertFlag_eq]
  by_cases hgf : g = f
  · subst hgf
    have hget : attrsRecord.get (.flag g)
        (p.write (.flag g) (attrsRecord.mask (.flag g))).attrs = attrsRecord.mask (.flag g) :=
      BitRecord.get_set_self BitRecord.fits_mask
    rw [decide_eq_true rfl, Bool.true_or]
    exact beq_iff_eq.mpr hget
  · rw [containsFlag_write BitRecord.fits_mask fun heq => hgf (Field.flag.inj heq).symm,
      decide_eq_false hgf, Bool.false_or]

theorem containsFlag_removeFlag :
    (p.removeFlag f).containsFlag g = (!decide (g = f) && p.containsFlag g) := by
  rw [removeFlag_eq]
  by_cases hgf : g = f
  · subst hgf
    have hget : attrsRecord.get (.flag g) (p.write (.flag g) 0#32).attrs = 0#32 :=
      BitRecord.get_set_self BitRecord.fits_zero
    rw [decide_eq_true rfl, Bool.not_true, Bool.false_and]
    refine (congrArg (fun x => x == g.bits.setWidth 32) hget).trans ?_
    cases g <;> rfl
  · rw [containsFlag_write BitRecord.fits_zero fun heq => hgf (Field.flag.inj heq).symm,
      decide_eq_false hgf, Bool.not_false, Bool.true_and]

/-! ### A new header -/

/-- The words before type and flag are put in. -/
def blank (partitionId : BitVec 16) : PackedHead :=
  ⟨0xFF000000#32, partitionId.setWidth 32, 0#32⟩

theorem init_eq (i : BitVec 16) (t : BitVec 8) (b : Bool) : init i t b =
    if b then ((blank i).write .dtype (t.setWidth 32 <<< 8)).insertFlag .arenaAlloc
    else (blank i).write .dtype (t.setWidth 32 <<< 8) := by
  have hkeep : 0xFF000000#32 &&& ~~~(attrsRecord.mask .dtype) = 0xFF000000#32 := by decide
  have hset : 0xFF000000#32 ||| (t.setWidth 32 <<< 8) =
      attrsRecord.set .dtype (t.setWidth 32 <<< 8) 0xFF000000#32 := by
    rw [BitRecord.set, hkeep]
  cases b with
  | true => rw [if_pos rfl, insertFlag, write, blank, ← hset]; rfl
  | false => rw [if_neg Bool.false_ne_true, write, blank, ← hset]; rfl

theorem fits_dtype (t : BitVec 8) : attrsRecord.Fits .dtype (t.setWidth 32 <<< 8) := by
  have hmask : attrsRecord.mask .dtype = (BitVec.allOnes 8).setWidth 32 <<< 8 := rfl
  rw [BitRecord.Fits, hmask, ← BitVec.shiftLeft_and_distrib, ← BitVec.setWidth_and,
    BitVec.and_allOnes]

/-- Before the flag is put in. -/
theorem unpack_blank (i : BitVec 16) (t : BitVec 8) :
    ((blank i).write .dtype (t.setWidth 32 <<< 8)).unpack =
      some (GcHead.init i.toNat t.toNat false) := by
  have hblank : (blank i).color = some .white := by
    change GcTriColor.tryFrom (0xFF000000#32 &&& colorMask) = some .white
    decide
  have hcolor : ((blank i).write .dtype (t.setWidth 32 <<< 8)).color = some .white :=
    (color_write (fits_dtype t) (by decide)).trans hblank
  have hflag : ∀ f, ((blank i).write .dtype (t.setWidth 32 <<< 8)).containsFlag f = false := by
    intro f
    rw [containsFlag_write (fits_dtype t) nofun]
    change (0xFF000000#32 &&& f.bits.setWidth 32 == f.bits.setWidth 32) = false
    cases f <;> decide
  have hdtype : ((blank i).write .dtype (t.setWidth 32 <<< 8)).dtype = t := by
    have hget : attrsRecord.get .dtype
        ((blank i).write .dtype (t.setWidth 32 <<< 8)).attrs = t.setWidth 32 <<< 8 :=
      BitRecord.get_set_self (fits_dtype t)
    refine (congrArg (fun x : BitVec 32 => (x >>> 8).setWidth 8) hget).trans ?_
    ext k hk
    have hlow : k < 32 := by omega
    have hin : 8 + k < 32 := by omega
    have hout : ¬ 8 + k < 8 := by omega
    simp [hk, hlow, hin, hout]
  have hpartition : ((blank i).write .dtype (t.setWidth 32 <<< 8)).partitionId = i := by
    change (i.setWidth 32 &&& (BitVec.allOnes 16).setWidth 32).setWidth 16 = i
    rw [← BitVec.setWidth_and, BitVec.and_allOnes]
    simp
  simp only [unpack, hcolor, hdtype, hpartition, hflag, isGrayListed_eq, isRoot, isLocal,
    traverseVisited, Option.map_some]
  rfl

end PackedHead

/-! ### Calls -/

/-- Set or clear a flag of a header. -/
def GcHead.setFlag (f : GcNodeFlag) (b : Bool) (hd : GcHead) : GcHead :=
  match f with
  | .arenaAlloc => { hd with arenaAlloc := b }
  | .grayListed => { hd with grayListed := b }
  | .root => { hd with isRoot := b }
  | .isLocal => { hd with isLocal := b }
  | .traverseVisited => { hd with traverseVisited := b }

/-- A call of a method that writes a header. -/
inductive HeadCall
  /-- `set_color` -/
  | setColor (c : GcTriColor)
  /-- `insert_flag` -/
  | insertFlag (f : GcNodeFlag)
  /-- `remove_flag` -/
  | removeFlag (f : GcNodeFlag)
  /-- `set_traverse_visited` -/
  | setTraverseVisited (visited : Bool)
  /-- `set_gray_listed` -/
  | setGrayListed (b : Bool)
  /-- The assignment in `downgrade`. -/
  | setWeakId (weakId : BitVec 32)
deriving DecidableEq

/-- What a call does to the words. -/
def HeadCall.run : HeadCall → PackedHead → PackedHead
  | .setColor c, p => p.setColor c
  | .insertFlag f, p => p.insertFlag f
  | .removeFlag f, p => p.removeFlag f
  | .setTraverseVisited visited, p => p.setTraverseVisited visited
  | .setGrayListed b, p => p.setGrayListed b
  | .setWeakId weakId, p => { p with weakId := weakId }

/-- What it does to the header. -/
def HeadCall.effect : HeadCall → GcHead → GcHead
  | .setColor c, hd => { hd with color := c }
  | .insertFlag f, hd => hd.setFlag f true
  | .removeFlag f, hd => hd.setFlag f false
  | .setTraverseVisited visited, hd => { hd with traverseVisited := visited }
  | .setGrayListed b, hd => { hd with grayListed := b }
  | .setWeakId weakId, hd => { hd with weakId := ⟨weakId.toNat⟩ }

namespace PackedHead

variable {p : PackedHead} {f : GcNodeFlag}

theorem unpack_insertFlag : (p.insertFlag f).unpack = p.unpack.map (GcHead.setFlag f true) := by
  have hcolor : (p.insertFlag f).color = p.color := by
    rw [insertFlag_eq]
    exact color_write BitRecord.fits_mask nofun
  have hdtype : (p.insertFlag f).dtype = p.dtype := by
    rw [insertFlag_eq]
    exact dtype_write BitRecord.fits_mask nofun
  rw [unpack, unpack, hcolor, Option.map_map]
  refine congrArg (fun g => p.color.map g) (funext fun c => ?_)
  simp only [isGrayListed_eq, isRoot, isLocal, traverseVisited, containsFlag_insertFlag, hdtype,
    Function.comp_apply]
  cases f <;> rfl

theorem unpack_removeFlag : (p.removeFlag f).unpack = p.unpack.map (GcHead.setFlag f false) := by
  have hcolor : (p.removeFlag f).color = p.color := by
    rw [removeFlag_eq]
    exact color_write BitRecord.fits_zero nofun
  have hdtype : (p.removeFlag f).dtype = p.dtype := by
    rw [removeFlag_eq]
    exact dtype_write BitRecord.fits_zero nofun
  rw [unpack, unpack, hcolor, Option.map_map]
  refine congrArg (fun g => p.color.map g) (funext fun c => ?_)
  simp only [isGrayListed_eq, isRoot, isLocal, traverseVisited, containsFlag_removeFlag, hdtype,
    Function.comp_apply]
  cases f <;> rfl

theorem unpack_setColor {hd : GcHead} (c : GcTriColor) (hp : p.unpack = some hd) :
    (p.setColor c).unpack = some { hd with color := c } := by
  have hdtype : (p.setColor c).dtype = p.dtype := by
    rw [setColor_eq]
    exact dtype_write (fits_toU32 c) nofun
  have hflag : ∀ f, (p.setColor c).containsFlag f = p.containsFlag f := by
    intro f
    rw [setColor_eq]
    exact containsFlag_write (fits_toU32 c) nofun
  obtain ⟨c', -, rfl⟩ := Option.map_eq_some_iff.mp hp
  rw [unpack, color_setColor, Option.map_some]
  simp only [isGrayListed_eq, isRoot, isLocal, traverseVisited, hflag, hdtype]
  rfl

/-- **A call** does to the words what it does to the header that they stand for. -/
theorem unpack_run {hd : GcHead} (call : HeadCall) (hp : p.unpack = some hd) :
    (call.run p).unpack = some (call.effect hd) := by
  have hflag : ∀ f (b : Bool), (if b then p.insertFlag f else p.removeFlag f).unpack =
      some (hd.setFlag f b) := by
    intro f b
    cases b with
    | true => exact unpack_insertFlag.trans (congrArg _ hp)
    | false => exact unpack_removeFlag.trans (congrArg _ hp)
  cases call with
  | setColor c => exact unpack_setColor c hp
  | insertFlag f => exact hflag f true
  | removeFlag f => exact hflag f false
  | setTraverseVisited visited =>
    rw [HeadCall.run, setTraverseVisited]
    exact hflag .traverseVisited visited
  | setGrayListed b =>
    rw [HeadCall.run, setGrayListed_eq]
    exact hflag .grayListed b
  | setWeakId weakId =>
    obtain ⟨c, hc, rfl⟩ := Option.map_eq_some_iff.mp hp
    exact Option.map_eq_some_iff.mpr ⟨c, hc, rfl⟩

/-- A new header, from the arena or not. -/
theorem unpack_init (i : BitVec 16) (t : BitVec 8) (b : Bool) :
    (init i t b).unpack = some (GcHead.init i.toNat t.toNat b) := by
  rw [init_eq]
  cases b with
  | true => exact unpack_run (.insertFlag .arenaAlloc) (unpack_blank i t)
  | false => exact unpack_blank i t

/-! ### What no call touches -/

/-- The sentinel is in place, and the reserved bits are clear. -/
def Sealed (p : PackedHead) : Prop := attrsRecord.get .rest p.attrs = 0xFF000000#32

instance : Decidable p.Sealed := inferInstanceAs (Decidable (_ = _))

theorem Sealed.write {i : Field} {v : BitVec 32} (hp : p.Sealed) (hv : attrsRecord.Fits i v)
    (hi : i ≠ .rest) : (p.write i v).Sealed := (BitRecord.get_set_of_ne hi hv).trans hp

theorem Sealed.insertFlag (hp : p.Sealed) : (p.insertFlag f).Sealed := by
  rw [insertFlag_eq]
  exact hp.write BitRecord.fits_mask nofun

theorem Sealed.removeFlag (hp : p.Sealed) : (p.removeFlag f).Sealed := by
  rw [removeFlag_eq]
  exact hp.write BitRecord.fits_zero nofun

theorem sealed_init (i : BitVec 16) (t : BitVec 8) (b : Bool) : (init i t b).Sealed := by
  have hseal : (blank i).Sealed := by
    change 0xFF000000#32 &&& 0xFFFF0010#32 = 0xFF000000#32
    decide
  have hblank := hseal.write (fits_dtype t) nofun
  rw [init_eq]
  cases b with
  | true => exact hblank.insertFlag
  | false => exact hblank

theorem Sealed.run (hp : p.Sealed) (call : HeadCall) : (call.run p).Sealed := by
  have hflag : ∀ f (b : Bool), (if b then p.insertFlag f else p.removeFlag f).Sealed := by
    intro f b
    cases b with
    | true => exact hp.insertFlag
    | false => exact hp.removeFlag
  cases call with
  | setColor c =>
    rw [HeadCall.run, setColor_eq]
    exact hp.write (fits_toU32 c) nofun
  | insertFlag f => exact hp.insertFlag
  | removeFlag f => exact hp.removeFlag
  | setTraverseVisited visited =>
    rw [HeadCall.run, setTraverseVisited]
    exact hflag .traverseVisited visited
  | setGrayListed b =>
    rw [HeadCall.run, setGrayListed_eq]
    exact hflag .grayListed b
  | setWeakId weakId => exact hp

end PackedHead

end GcLite
