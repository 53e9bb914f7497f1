import Mathlib.Data.Int.Bitwise
import Ladybirds.BankAssignment

/-! # Cache index optimisation and the `AssignBanks` pass

`CacheIndexOpt` colours the buffers of each task with offsets in a cache-index cycle and places
each after the last buffer of its bank, padded while the padding fits. The `AssignBanks` pass runs
`BankAssignment::AssignBanks` and then this optimisation on every task division.
-/

namespace Ladybirds

namespace CacheIndexOpt

open BankAssignment

/-- `spec::Platform::CacheConfig`. -/
structure CacheConfig where
  wordSize : Int
  associativity : Int
  lineCount : Int
  deriving DecidableEq, Repr

/-- `spec::Platform::Cluster`. -/
structure Cluster where
  nCores : Int
  nBanks : Nat
  bankSize : Int
  deriving DecidableEq, Repr

structure Slot where
  start : Int
  «end» : Int
  deriving DecidableEq, Repr

structure BankInfo where
  freeSpace : Int
  nBuffers : Int
  slots : List Slot
  deriving DecidableEq, Repr

structure ColorInfo where
  count : Int
  offset : Int
  gap : Int
  deriving DecidableEq, Repr

/-- The penalty edges of `CreateBufferGraph`: each pair of interfaces of one task on distinct
buffers, later interface first. Only the penalties are kept. -/
def createBufferGraph (div : TaskDivision) : List BufferEdge :=
  div.tasks.foldl (fun es pt =>
    (List.range pt.ifaceBuffers.length).reverse.foldl (fun es i1 =>
      (List.range i1).reverse.foldl (fun es i2 =>
        let tr1 := pt.ifaceBuffers.getD i1 0
        let tr2 := pt.ifaceBuffers.getD i2 0
        if tr1 = tr2 then es else registerEdge es tr1 tr2 fun e => { e with penalty := e.penalty + 1 })
        es) es) []

/-- `Node::EdgeCount()`. -/
def edgeCount (es : List BufferEdge) (n : Nat) : Int :=
  ((es.filter (·.target = n)).length + (es.filter (·.source = n)).length : Nat)

/-- `FillBankInfo`: every bank starts with `BankSize` free, less the buffers assigned to it;
`false` where a buffer has no valid bank. -/
def fillBankInfo (cluster : Cluster) (buffers : List Buffer) : List BankInfo × Bool :=
  buffers.foldl (fun (acc : List BankInfo × Bool) b =>
      if b.memBank < 0 ∨ b.memBank ≥ (cluster.nBanks : Int) then (acc.1, false)
      else (acc.1.modify (fun bi =>
        { bi with
          freeSpace := bi.freeSpace - b.size
          nBuffers := bi.nBuffers + 1 }) b.memBank.toNat, acc.2))
    (List.replicate cluster.nBanks ⟨cluster.bankSize, 0, []⟩, true)

/-- `GetColors`: as many colours as the maximal degree allows, at most 256 bytes apart; `none` on
an empty graph, where the source dereferences `max_element` of an empty range. -/
def getColors (cache : CacheConfig) (nodes : Nat) (es : List BufferEdge) : Option ColorInfo :=
  if nodes = 0 then none
  else
    let ncolors := ((List.range nodes).map (edgeCount es)).foldl max 0 + 1
    if ncolors > cache.lineCount then some ⟨cache.lineCount, cache.wordSize, 0⟩
    else
      let coloroffset := min ((cache.lineCount.tdiv ncolors) * cache.wordSize) 256
      let ncolors := (cache.lineCount * cache.wordSize).tdiv coloroffset
      some ⟨ncolors, coloroffset, cache.lineCount * cache.wordSize - ncolors * coloroffset⟩

/-- The free space of a node's bank. -/
def nodeFreeSpace (banks : List BankInfo) (buffers : List Buffer) (n : Nat) : Int :=
  ((banks.getD ((buffers.getD n ⟨0, 0, 0⟩).memBank.toNat) ⟨0, 0, []⟩)).freeSpace

/-- The first step of `RunOptimization`: `k` times, the node not removed yet with the most free
space in its bank (then the fewest edges) is removed. -/
def removalOrder (es : List BufferEdge) (banks : List BankInfo) (buffers : List Buffer) :
    Nat → List Bool → List Nat
  | 0, _ => []
  | k + 1, ignore =>
    match minElementIf (fun i => !(ignore.getD i false))
      (fun i j => multiCritLess [-(nodeFreeSpace banks buffers i) + nodeFreeSpace banks buffers j,
        edgeCount es i - edgeCount es j])
      (List.range buffers.length) with
    | some n => n :: removalOrder es banks buffers k (ignore.set n true)
    | none => []

/-- The state of the second step. -/
structure OptState where
  ignore : List Bool
  color : List Int
  buffers : List Buffer
  banks : List BankInfo
  deriving DecidableEq, Repr

/-- `nextcolor`: the next colour and its position. -/
def nextColor (colors : ColorInfo) (pc : Int × Int) : Int × Int :=
  if pc.2 + 1 ≥ colors.count then (pc.1 + colors.offset + colors.gap, 0)
  else (pc.1 + colors.offset, pc.2 + 1)

/-- The colour loop: `i` more colours to try from `(pos, color)`, and the best colour, conflicts
and position so far; it stops where the padding no longer fits. -/
def bestColor (colors : ColorInfo) (conflicts : List Int) (startpos freeSpace : Int) :
    Nat → Int × Int → Int × Int × Int → Int × Int × Int
  | 0, _, best => best
  | i + 1, (pos, color), best =>
    if pos - startpos > freeSpace then best
    else
      let c := conflicts.getD color.toNat 0
      let best := if c < best.2.1 then (color, c, pos) else best
      bestColor colors conflicts startpos freeSpace i (nextColor colors (pos, color)) best

/-- `INT_MAX`, the conflicts before any colour is tried. -/
def intMax : Int := 2 ^ 31 - 1

/-- One pass of the second step for node `pn`: count the conflicts of each colour with the placed
neighbours, pick the colour, and place the buffer after the last one of its bank. -/
def placeNode (cache : CacheConfig) (colors : ColorInfo) (es : List BufferEdge) (st : OptState)
    (pn : Nat) : OptState :=
  let indexmask := cache.lineCount * cache.wordSize - 1
  let conflicts := ((es.filter (·.target = pn)).reverse ++ (es.filter (·.source = pn)).reverse).foldl
    (fun conflicts e =>
      let pn2 := if e.source = pn then e.target else e.source
      if st.ignore.getD pn2 false then conflicts
      else conflicts.modify (· + 1) (st.color.getD pn2 0).toNat)
    (List.replicate colors.count.toNat 0)
  let buf := st.buffers.getD pn ⟨0, 0, 0⟩
  let bank := st.banks.getD buf.memBank.toNat ⟨0, 0, []⟩
  let (startpos, pos, color) := match bank.slots.getLast? with
    | none => (0, 0, 0)
    | some last =>
      let startpos := last.«end»
      let color := (Int.land (startpos - 1) indexmask).tdiv colors.offset
      let pos := startpos - 1 - (Int.land (startpos - 1) indexmask).tmod colors.offset
      let pc := nextColor colors (pos, color)
      (startpos, pc.1, pc.2)
  let best := bestColor colors conflicts startpos bank.freeSpace colors.count.toNat (pos, color)
    (color, intMax, startpos)
  { ignore := st.ignore.set pn false
    color := st.color.set pn best.1
    buffers := st.buffers.set pn { buf with bankOffset := best.2.2 }
    banks := st.banks.set buf.memBank.toNat
      { bank with
        freeSpace := bank.freeSpace - (best.2.2 - startpos)
        slots := bank.slots ++ [⟨best.2.2, best.2.2 + buf.size⟩] } }

/-- `RunOptimization`, after `FillBankInfo` left `banks`: the colours it uses and the state it
leaves, each node with its colour and each buffer with its offset. -/
def runOptimizationState (cache : CacheConfig) (es : List BufferEdge) (banks : List BankInfo)
    (buffers : List Buffer) : Option (ColorInfo × OptState) := do
  let colors ← getColors cache buffers.length es
  let order := removalOrder es banks buffers buffers.length (buffers.map fun _ => false)
  pure (colors, order.reverse.foldl (placeNode cache colors es)
    ⟨buffers.map fun _ => true, buffers.map fun _ => -1, buffers, banks⟩)

/-- `RunOptimization`: the buffers with their offsets. -/
def runOptimization (cache : CacheConfig) (es : List BufferEdge) (banks : List BankInfo)
    (buffers : List Buffer) : Option (List Buffer) :=
  (runOptimizationState cache es banks buffers).map (·.2.buffers)

/-- The cache colour of an offset, `(offset & (LineCount*WordSize - 1)) / colors.offset`. -/
def cacheColor (cache : CacheConfig) (colors : ColorInfo) (offset : Int) : Int :=
  (Int.land offset (cache.lineCount * cache.wordSize - 1)).tdiv colors.offset

/-- Every node's recorded colour is the cache colour of its buffer's offset. -/
def ColorsMatch (cache : CacheConfig) (colors : ColorInfo) (st : OptState) : Prop :=
  ∀ i < st.buffers.length,
    st.color.getD i 0 = cacheColor cache colors (st.buffers.getD i ⟨0, 0, 0⟩).bankOffset

instance (cache : CacheConfig) (colors : ColorInfo) (st : OptState) :
    Decidable (ColorsMatch cache colors st) :=
  inferInstanceAs (Decidable (∀ i < st.buffers.length,
    st.color.getD i 0 = cacheColor cache colors (st.buffers.getD i ⟨0, 0, 0⟩).bankOffset))

/-- `Optimize(div)`: the buffers with their offsets, and the result. -/
def optimize (cluster : Cluster) (cache : CacheConfig) (div : TaskDivision) :
    Option (List Buffer × Bool) :=
  let es := createBufferGraph div
  let r := fillBankInfo cluster div.buffers
  let buffers := div.buffers.map fun b =>
    if b.memBank < 0 ∨ b.memBank ≥ (cluster.nBanks : Int) then b else { b with bankOffset := -1 }
  if r.2 then (runOptimization cache es r.1 buffers).map (·, true) else some (buffers, false)

end CacheIndexOpt

open BankAssignment CacheIndexOpt

/-- The MPPA data the pass fixes: 64-byte words, 2-way, 64 lines. -/
def mppaCache : CacheConfig := ⟨64, 2, 64⟩

/-- The MPPA cluster the pass fixes: 16 cores, 16 banks of 116 KiB. -/
def mppaCluster : Cluster := ⟨16, 16, 116 * 1024⟩

/-- The `AssignBanks` pass on one division, after the overlaps were loaded: the division with
its buffers' banks and offsets, and whether both steps succeeded. -/
def assignBanksDivision (overlaps : List TaskOverlap) (div : TaskDivision) :
    Option (TaskDivision × Bool) :=
  let r := assignBanks (BankAssignment.createBufferGraph div overlaps) (div.buffers.map (·.size))
  let div : TaskDivision :=
    { div with buffers := List.zipWith (fun b m => { b with memBank := m }) div.buffers r.1 }
  if r.2 then (optimize mppaCluster mppaCache div).map fun o => ({ div with buffers := o.1 }, o.2)
  else some (div, false)

/-- The `AssignBanks` pass: every division in turn; it returns `true` where every division
succeeded. -/
def assignBanksPass (timings : List TaskTiming) (divs : List TaskDivision) :
    Option (List TaskDivision × Bool) :=
  let overlaps := loadOverlaps timings
  divs.foldlM (fun acc div => (assignBanksDivision overlaps div).map fun r =>
    (acc.1 ++ [r.1], r.2 && acc.2)) ([], true)

/-- The capacity `BankAssignment::AssignBanks` assumes for bank `b`. -/
def assumedCapacity (b : Int) : Int := if b = 0 then 5 * 1024 else initialBankCapacity

/-- The placement the bank assignment promises: every buffer in one of the 16 banks, inside the
capacity assumed for it, and no two buffers of one bank overlapping. -/
def RespectsBanks (div : TaskDivision) : Prop :=
  (∀ b ∈ div.buffers, 0 ≤ b.memBank ∧ b.memBank < 16 ∧ 0 ≤ b.bankOffset ∧
    b.bankOffset + b.size ≤ assumedCapacity b.memBank) ∧
  div.buffers.Pairwise fun b1 b2 => b1.memBank = b2.memBank →
    b1.bankOffset + b1.size ≤ b2.bankOffset ∨ b2.bankOffset + b2.size ≤ b1.bankOffset

instance (div : TaskDivision) : Decidable (RespectsBanks div) := by
  unfold RespectsBanks; infer_instance

/-- A division whose 1 KiB and 4 KiB buffers, used by one task, can only go to bank 0, since each
other bank is filled by a 116 KiB buffer of a task of its own. -/
def smallPairDivision : TaskDivision :=
  ⟨[⟨1024, 0, -1⟩, ⟨4096, 0, -1⟩] ++ List.replicate 15 ⟨116 * 1024, 0, -1⟩,
    ⟨[1, 0], 0⟩ :: (List.range 15).map fun i => ⟨[i + 2], 0⟩⟩

/-- What the pass leaves: the 4 KiB buffer at offset 0 of bank 0 takes colour 0, so the 1 KiB
buffer that shares its task skips to the next colour, at offset 4352. -/
def smallPairPlaced : TaskDivision :=
  { smallPairDivision with
    buffers := [⟨1024, 0, 4352⟩, ⟨4096, 0, 0⟩] ++ (List.range 15).map fun i => ⟨116 * 1024, i + 1, 0⟩ }

set_option maxRecDepth 20000 in
/-- The pass succeeds and puts a buffer of bank 0 past the 5 KiB that bank assignment reserved. -/
theorem assignBanksPass_smallPair_overflows :
    assignBanksPass [] [smallPairDivision] = some ([smallPairPlaced], true) ∧
      ¬ RespectsBanks smallPairPlaced :=
  ⟨rfl, by decide⟩

/-- Bank 1 almost filled by its two buffers: 10 bytes, and 116 KiB less 110 bytes, each used by
a task of its own, so that 100 bytes are left for padding. -/
def tightBank : TaskDivision :=
  ⟨[⟨116 * 1024 - 110, 1, -1⟩, ⟨10, 1, -1⟩], [⟨[0], 0⟩, ⟨[1], 0⟩]⟩

/-- The 10-byte buffer goes first, at offset 0 with colour 0. For the large one the colour loop
starts at the next colour, 1 at offset 256, which is 246 bytes of padding: more than the 100
free, so the loop stops at once and leaves the colour at 1 but the offset at 10, of colour 0. -/
theorem tightBank_color_mismatch :
    ∃ r, runOptimizationState mppaCache (createBufferGraph tightBank)
        (fillBankInfo mppaCluster tightBank.buffers).1
        (tightBank.buffers.map fun b => { b with bankOffset := -1 }) = some r ∧
      r.2.color = [1, 0] ∧ r.2.buffers.map (·.bankOffset) = [10, 0] ∧
      ¬ ColorsMatch mppaCache r.1 r.2 :=
  ⟨_, rfl, by decide, by decide, by decide⟩

end Ladybirds
