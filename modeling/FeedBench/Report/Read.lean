import FeedBench.Lib.Columns
import FeedBench.Report.Render

/-!
# Reading a report

What a reader of the text finds in it: the names, the counts, and the other figures at the
decimals they are printed with.  A reader takes the lines apart at blank lines and the lines of
a table at runs of blanks, and needs no column widths.
-/

namespace FeedBench.Report

open Stats Lib Columns

/-- Text that can be a cell: in one line, its words one blank apart, nothing trimmed. -/
structure IsCell (c : List Char) : Prop where
  field : IsField ' ' c
  one_line : '\n' ∉ c
  trimmed : Text.trimEnd c = c

instance (c : List Char) : Decidable (IsCell c) :=
  decidable_of_iff (IsField ' ' c ∧ '\n' ∉ c ∧ Text.trimEnd c = c)
    ⟨fun h => ⟨h.1, h.2.1, h.2.2⟩, fun h => ⟨h.1, h.2, h.3⟩⟩

/-! ## Figures as printed -/

def printedPercentiles (d : Percentiles ℚ) : Percentiles ℚ where
  n := d.n
  p10 := toDecimals 2 d.p10
  p50 := toDecimals 2 d.p50
  p75 := toDecimals 2 d.p75
  p90 := toDecimals 2 d.p90
  p95 := toDecimals 2 d.p95
  p99 := toDecimals 2 d.p99
  p999 := toDecimals 2 d.p999
  max := toDecimals 2 d.max

def printedBlockSource (s : BlockSourceStats) : BlockSourceStats :=
  { s with winPct := toDecimals 1 s.winPct, delay := printedPercentiles s.delay }

def printedBlock (b : BlockSummary) : BlockSummary :=
  { b with perSource := b.perSource.map printedBlockSource }

def printedTxSource (s : TxSourceStats) : TxSourceStats :=
  { s with
    coveragePct := toDecimals 1 s.coveragePct
    firstPct := toDecimals 1 s.firstPct
    firstBy1msPct := toDecimals 1 s.firstBy1msPct
    lagP50 := toDecimals 2 s.lagP50
    lagP90 := toDecimals 2 s.lagP90
    lagP95 := toDecimals 2 s.lagP95
    lagP99 := toDecimals 2 s.lagP99
    lagMax := toDecimals 2 s.lagMax }

def printedTx (tx : TxSummary) : TxSummary :=
  { tx with perSource := tx.perSource.map printedTxSource }

def printedInterval (iv : IntervalStats) : IntervalStats :=
  { iv with
    startS := toDecimals 0 iv.startS
    medianMs := toDecimals 2 iv.medianMs
    refFirstPct := toDecimals 1 iv.refFirstPct }

def printedBucket (b : BucketStats) : BucketStats :=
  { b with
    blocksPct := toDecimals 1 b.blocksPct
    txsPct := toDecimals 1 b.txsPct
    medianMs := toDecimals 2 b.medianMs
    p10Ms := toDecimals 2 b.p10Ms
    p90Ms := toDecimals 2 b.p90Ms
    refFirstPct := toDecimals 1 b.refFirstPct }

/-- A single interval is not printed. -/
def printedPair (p : PairSummary) : PairSummary :=
  { p with
    medianMs := toDecimals 2 p.medianMs
    p10Ms := toDecimals 2 p.p10Ms
    p90Ms := toDecimals 2 p.p90Ms
    refFirstPct := toDecimals 1 p.refFirstPct
    within1msPct := toDecimals 1 p.within1msPct
    refEarlier5msPct := toDecimals 1 p.refEarlier5msPct
    otherEarlier5msPct := toDecimals 1 p.otherEarlier5msPct
    intervals := if 1 < p.intervals.length then p.intervals.map printedInterval else []
    buckets := p.buckets.map printedBucket }

/-! ## Readers -/

def readRows (lines : List (List Char)) : List (List (List Char)) :=
  (lines.drop 2).map (fields ' ')

def readBlockRow : List (List Char) → Option BlockSourceStats
  | [name, wins, winPct, p10, p50, p75, p90, p95, p99, p999, max, n] => do
      let delay : Percentiles ℚ := {
        n := ← readNat n
        p10 := ← readDecimal p10
        p50 := ← readDecimal p50
        p75 := ← readDecimal p75
        p90 := ← readDecimal p90
        p95 := ← readDecimal p95
        p99 := ← readDecimal p99
        p999 := ← readDecimal p999
        max := ← readDecimal max }
      return {
        name := String.ofList name
        wins := ← readNat wins
        winPct := ← readPercent winPct
        delay := delay }
  | _ => none

def readBlockSummary : List (List Char) → Option BlockSummary
  | [] => none
  | title :: table => do
      let (label, completed) ← Text.rsplitOnce ' ' title
      return {
        label := String.ofList (← Text.stripSuffix " completed blocks:".toList label)
        completed := ← readNat completed
        perSource := ← (readRows table).mapM readBlockRow }

def readSummary (text : List Char) : Option BlockSummary :=
  readBlockSummary (text.splitOn '\n').dropLast

def readTxRow : List (List Char) → Option TxSourceStats
  | [name, seen, coverage, first, first1ms, p50, p90, p95, p99, max] => do
      return {
        name := String.ofList name
        seen := ← readNat seen
        coveragePct := ← readPercent coverage
        firstPct := ← readPercent first
        firstBy1msPct := ← readPercent first1ms
        lagP50 := ← readDecimal p50
        lagP90 := ← readDecimal p90
        lagP95 := ← readDecimal p95
        lagP99 := ← readDecimal p99
        lagMax := ← readDecimal max }
  | _ => none

def readCount (heading : List Char) (s : List Char) : Option Nat :=
  (Text.stripPrefix (heading ++ [' ']) s).bind readNat

def readTxSummary : List (List Char) → Option TxSummary
  | _ :: counts :: table => do
      let [total, all, swaps] := fields ' ' counts | none
      return {
        total := ← readCount "distinct txs".toList total
        matched := ← readCount "seen by all".toList all
        syntheticSwaps := ← readCount "flagged swaps".toList swaps
        perSource := ← (readRows table).mapM readTxRow }
  | _ => none

def readIntervalRow : List (List Char) → Option IntervalStats
  | [index, start, txs, median, first] => do
      return {
        index := ← (Text.stripPrefix ['#'] index).bind readNat
        startS := ← (Text.stripSuffix ['s'] start).bind readDecimal
        n := ← readNat txs
        medianMs := ← readDecimal median
        refFirstPct := ← readPercent first }
  | _ => none

def readBucketRow : List (List Char) → Option BucketStats
  | [label, blocks, blocksPct, txs, txsPct, median, p10, p90, first] => do
      return {
        label := String.ofList label
        blocks := ← readNat blocks
        blocksPct := ← readPercent blocksPct
        txs := ← readNat txs
        txsPct := ← readPercent txsPct
        medianMs := ← (Text.stripSuffix " ms".toList median).bind readDecimal
        p10Ms := ← readDecimal p10
        p90Ms := ← readDecimal p90
        refFirstPct := ← readPercent first }
  | _ => none

def readPairCount (reference title : List Char) : Option Nat := do
  let before ← Text.stripSuffix
    (" txs seen by both; positive = ".toList ++ reference ++ " earlier".toList) title
  let (_, count) ← Text.rsplitOnce ' ' before
  readNat count

/-- What the first table of a pair is followed by: the intervals, if there are any, the line about
the sizes and the buckets. -/
def isSizeLine (line : List Char) : Bool := "by block size".toList.isPrefixOf line

def readPair : List (List Char) → Option PairSummary
  | title :: headers :: _ :: row :: lines => do
      let [_, _, _, refFirst, _, _, otherEarlier] := fields ' ' headers | none
      let [median, p10, p90, first, within, refEarlier, other] := fields ' ' row | none
      let size :: buckets := lines.dropWhile fun line => !isSizeLine line | none
      let reference ← Text.stripSuffix " first".toList refFirst
      let source ← Text.stripPrefix "by block size (tx count from ".toList size
      return {
        reference := String.ofList reference
        other := String.ofList (← Text.stripSuffix " >5ms earlier".toList otherEarlier)
        n := ← readPairCount reference title
        medianMs := ← readDecimal median
        p10Ms := ← readDecimal p10
        p90Ms := ← readDecimal p90
        refFirstPct := ← readPercent first
        within1msPct := ← readPercent within
        refEarlier5msPct := ← readPercent refEarlier
        otherEarlier5msPct := ← readPercent other
        intervals :=
          ← (readRows (lines.takeWhile fun line => !isSizeLine line)).mapM readIntervalRow
        sizeSource := String.ofList (← Text.stripSuffix "):".toList source)
        buckets := ← (readRows buckets).mapM readBucketRow }
  | _ => none

structure Tables where
  block : BlockSummary
  tx : TxSummary
  pairs : List PairSummary

def tables (r : Main.Report) : Tables := ⟨r.block, r.tx, r.pairs⟩

/-! ### Counts -/

def countsOfBlock (b : BlockSummary) : String × Nat × List (String × Nat × Nat) :=
  (b.label, b.completed, b.perSource.map fun s => (s.name, s.wins, s.delay.n))

def countsOfTx (tx : TxSummary) : Nat × Nat × Nat × List (String × Nat) :=
  (tx.total, tx.matched, tx.syntheticSwaps, tx.perSource.map fun s => (s.name, s.seen))

def countsOfPair (p : PairSummary) :
    String × String × Nat × String × List (String × Nat × Nat) :=
  (p.reference, p.other, p.n, p.sizeSource, p.buckets.map fun b => (b.label, b.blocks, b.txs))

/-- `t` has the names and the counts of `t'`. -/
structure Tables.SameCounts (t t' : Tables) : Prop where
  block : countsOfBlock t.block = countsOfBlock t'.block
  tx : countsOfTx t.tx = countsOfTx t'.tx
  pairs : t.pairs.map countsOfPair = t'.pairs.map countsOfPair

def printed (r : Main.Report) : Tables where
  block := printedBlock r.block
  tx := printedTx r.tx
  pairs := r.pairs.map printedPair

/-- The sections are a blank line apart: the header, the blocks, the transactions, the pairs, and
a line about the percentiles. -/
def read (text : List Char) : Option Tables :=
  match (text.splitOn '\n').splitOn [] with
  | _ :: block :: tx :: rest => do
      return {
        block := ← readBlockSummary block.tail
        tx := ← readTxSummary tx
        pairs := ← rest.dropLast.mapM readPair }
  | _ => none

end FeedBench.Report
