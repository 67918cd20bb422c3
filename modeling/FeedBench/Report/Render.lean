import FeedBench.Main.Report
import FeedBench.Report.Number
import FeedBench.Report.Table

/-!
# The text of the report

`render_block_summary` and `render` of `report.rs`.  The figures are printed as they stand: what
the program prints is the report in doubles.  The header shows some texts that no table is made
of; they are kept apart in a cover.
-/

namespace FeedBench.Report

open Stats

def writeln (s : List Char) : List Char := s ++ ['\n']

def natText (k : Nat) : List Char := (toString k).toList

def Table.fill (t : Table) (rows : List (List (List Char))) : Table := rows.foldl row t

/-! ## Block level -/

def blockHeaders : List (List Char) :=
  ["source".toList, "wins".toList, "win%".toList, "p10".toList, "p50".toList, "p75".toList,
    "p90".toList, "p95".toList, "p99".toList, "p99.9".toList, "max".toList, "blocks".toList]

theorem blockHeaders_ne_nil : blockHeaders ≠ [] := List.cons_ne_nil _ _

def blockRow (s : BlockSourceStats) : List (List Char) :=
  let d := s.delay
  [s.name.toList, natText s.wins, pc s.winPct, f2 d.p10, f2 d.p50, f2 d.p75, f2 d.p90, f2 d.p95,
    f2 d.p99, f2 d.p999, f2 d.max, natText d.n]

def blockTable (b : BlockSummary) : Table :=
  (Table.new blockHeaders blockHeaders_ne_nil).fill (b.perSource.map blockRow)

def renderBlockSummary (b : BlockSummary) : List Char :=
  b.label.toList ++ " completed blocks: ".toList ++ natText b.completed ++ ['\n'] ++
    (blockTable b).render

/-! ## Transaction level -/

def txHeaders : List (List Char) :=
  ["source".toList, "seen".toList, "coverage".toList, "first".toList, "first>=1ms".toList,
    "p50".toList, "p90".toList, "p95".toList, "p99".toList, "max".toList]

theorem txHeaders_ne_nil : txHeaders ≠ [] := List.cons_ne_nil _ _

def txRow (s : TxSourceStats) : List (List Char) :=
  [s.name.toList, natText s.seen, pc s.coveragePct, pc s.firstPct, pc s.firstBy1msPct, f2 s.lagP50,
    f2 s.lagP90, f2 s.lagP95, f2 s.lagP99, f2 s.lagMax]

def txTable (tx : TxSummary) : Table :=
  (Table.new txHeaders txHeaders_ne_nil).fill (tx.perSource.map txRow)

def renderTxSummary (tx : TxSummary) : List Char :=
  writeln "B. Transaction level: key = tx hash; lag behind the earliest source in ms".toList ++
  writeln ("distinct txs ".toList ++ natText tx.total ++ "   seen by all ".toList ++
    natText tx.matched ++ "   flagged swaps ".toList ++ natText tx.syntheticSwaps) ++
  (txTable tx).render

/-! ## Pairs -/

def pairHeaders (p : PairSummary) : List (List Char) :=
  ["median".toList, "p10".toList, "p90".toList, p.reference.toList ++ " first".toList,
    "within 1ms".toList, p.reference.toList ++ " >5ms earlier".toList,
    p.other.toList ++ " >5ms earlier".toList]

theorem pairHeaders_ne_nil (p : PairSummary) : pairHeaders p ≠ [] := List.cons_ne_nil _ _

def pairRow (p : PairSummary) : List (List Char) :=
  [signed2 p.medianMs, signed2 p.p10Ms, signed2 p.p90Ms, pc p.refFirstPct, pc p.within1msPct,
    pc p.refEarlier5msPct, pc p.otherEarlier5msPct]

def pairTable (p : PairSummary) : Table :=
  (Table.new (pairHeaders p) (pairHeaders_ne_nil p)).row (pairRow p)

def intervalHeaders (p : PairSummary) : List (List Char) :=
  ["interval".toList, "from".toList, "txs".toList, "median".toList,
    p.reference.toList ++ " first".toList]

theorem intervalHeaders_ne_nil (p : PairSummary) : intervalHeaders p ≠ [] := List.cons_ne_nil _ _

def intervalRow (iv : IntervalStats) : List (List Char) :=
  ['#' :: natText iv.index, fixed 0 iv.startS ++ ['s'], natText iv.n, signed2 iv.medianMs,
    pc iv.refFirstPct]

def intervalTable (p : PairSummary) : Table :=
  (Table.new (intervalHeaders p) (intervalHeaders_ne_nil p)).fill (p.intervals.map intervalRow)

def bucketHeaders (p : PairSummary) : List (List Char) :=
  ["block size".toList, "blocks".toList, "blocks%".toList, "txs".toList, "txs%".toList,
    p.reference.toList ++ " earlier by".toList, "p10".toList, "p90".toList,
    p.reference.toList ++ " first".toList]

theorem bucketHeaders_ne_nil (p : PairSummary) : bucketHeaders p ≠ [] := List.cons_ne_nil _ _

def bucketRow (b : BucketStats) : List (List Char) :=
  [b.label.toList, natText b.blocks, pc b.blocksPct, natText b.txs, pc b.txsPct,
    signed2 b.medianMs ++ " ms".toList, signed2 b.p10Ms, signed2 b.p90Ms, pc b.refFirstPct]

def bucketTable (p : PairSummary) : Table :=
  (Table.new (bucketHeaders p) (bucketHeaders_ne_nil p)).fill (p.buckets.map bucketRow)

def renderPair (i : Nat) (p : PairSummary) : List Char :=
  writeln ("C".toList ++ natText (i + 1) ++ ". ".toList ++ p.reference.toList ++ " vs ".toList ++
    p.other.toList ++ ": ".toList ++ natText p.n ++ " txs seen by both; positive = ".toList ++
    p.reference.toList ++ " earlier".toList) ++
  (pairTable p).render ++
  (if 1 < p.intervals.length then (intervalTable p).render else []) ++
  writeln ("by block size (tx count from ".toList ++ p.sizeSource.toList ++ "):".toList) ++
  (bucketTable p).render

/-! ## The report -/

structure Place where
  target : List Char
  level : List Char

/-- What the header shows besides the figures. -/
structure Cover where
  tool : List Char
  version : List Char
  chainId : Nat
  startUtc : List Char
  endUtc : List Char
  hostname : List Char
  stamp : List Char
  places : List Place
  fairnessNote : List Char

def megabytes (bytes : UInt64) : List Char :=
  fixed 1 (Lib.toDouble (Lib.toDouble bytes.toNat / 10 ^ 6))

-- 0.15 and 0.005 are no doubles, and these are less and more
example : pc (Stats.Double.pct 3 2000) = "0.1%".toList ∧
    f2 (Stats.Double.ms 5000) = "0.01".toList := by decide +kernel

def renderSource (s : Main.SourceReport) (place : Place) : List Char :=
  let level := if place.level.isEmpty then [] else "   level ".toList ++ place.level
  let bytes :=
    if 0 < s.wireBytes then "   rx ".toList ++ megabytes s.wireBytes ++ " MB".toList else []
  writeln ("  ".toList ++ padEnd 10 s.info.name.toList ++ " ".toList ++
    padEnd 7 s.info.kind.toList ++ " ".toList ++ place.target ++ level) ++
  writeln ("  ".toList ++ padEnd 10 [] ++ " ".toList ++ s.detail.toList ++
    "   reconnects ".toList ++ natText s.reconnects.toNat ++
    "   blocks ".toList ++ natText s.blockEvents.toNat ++
    "   txs ".toList ++ natText s.txEvents.toNat ++
    " (".toList ++ megabytes s.rawTxBytes ++ " MB raw)".toList ++ bytes)

def renderHeader (cover : Cover) (h : Main.Header) : List Char :=
  writeln (cover.tool ++ " ".toList ++ cover.version ++ "  Robinhood Chain (chain id ".toList ++
    natText cover.chainId ++ ")".toList) ++
  writeln ("start    ".toList ++ cover.startUtc) ++
  writeln ("end      ".toList ++ cover.endUtc ++ "   duration ".toList ++ fixed 1 h.durationS ++
    " s".toList ++ if h.interrupted then "   (interrupted)".toList else []) ++
  writeln ("host     ".toList ++ cover.hostname) ++
  writeln ("stamp    ".toList ++ cover.stamp ++ "   warmup ".toList ++ fixed 0 h.warmupS ++
    " s   min-sources ".toList ++ natText h.minSources) ++
  writeln "sources".toList ++
  (List.zipWith renderSource h.sources cover.places).flatten ++
  writeln ("window   ".toList ++ fixed 1 h.windowS ++
    " s with every source connected   matched blocks ".toList ++ natText h.matchedBlocks ++
    "   matched txs ".toList ++ natText h.matchedTxs) ++
  writeln ("note     ".toList ++ cover.fairnessNote)

end FeedBench.Report

namespace FeedBench.Main.Report

open FeedBench.Report

def render (cover : Cover) (r : Main.Report) : List Char :=
  renderHeader cover r.header ++ ['\n'] ++
  writeln ("A. Block level: first source to deliver a block wins; " ++
    "delay behind the winner in ms").toList ++
  renderBlockSummary r.block ++ ['\n'] ++
  renderTxSummary r.tx ++ ['\n'] ++
  (r.pairs.mapIdx fun i p => renderPair i p ++ ['\n']).flatten ++
  ("percentiles: nearest rank; ms with two decimals; " ++
    "win% and first% over matched blocks/txs").toList

end FeedBench.Main.Report
