import FeedBench.Report.Proofs.Cells

/-!
# Sections read back

Each section of a report is a list of lines, and the lines give back the figures at the decimals
they are printed with, if every name in them can be a cell.
-/

namespace FeedBench.Report

open Stats Text Lib Columns

theorem mapM_map {A B C : Type*} {f : A → B} {g : B → Option C} {h : A → C} {l : List A}
    (hg : ∀ a ∈ l, g (f a) = some (h a)) : (l.map f).mapM g = some (l.map h) := by
  induction l with
  | nil => rfl
  | cons a l ih =>
      rw [List.map_cons, List.mapM_cons, hg a List.mem_cons_self,
        ih fun b hb => hg b (List.mem_cons_of_mem a hb)]
      rfl

theorem forall_mem_map {A B : Type*} {f : A → B} {l : List A} {P : B → Prop}
    (h : ∀ a ∈ l, P (f a)) : ∀ b ∈ l.map f, P b := by
  intro b hb
  obtain ⟨a, ha, rfl⟩ := List.mem_map.mp hb
  exact h a ha

/-! ## Block level -/

theorem readBlockRow_blockRow (s : BlockSourceStats) :
    readBlockRow (blockRow s) = some (printedBlockSource s) := by
  simp [readBlockRow, blockRow, natText, printedBlockSource, printedPercentiles]

theorem isCell_of_mem_blockRow {s : BlockSourceStats} (h : IsCell s.name.toList) :
    ∀ c ∈ blockRow s, IsCell c := by
  simp [blockRow, h, isCell_natText, isCell_pc, isCell_f2]

theorem isFull_blockTable {b : BlockSummary} (h : ∀ s ∈ b.perSource, IsCell s.name.toList) :
    (blockTable b).IsFull :=
  Table.isFull_fill (by decide) (forall_mem_map fun _ _ => rfl)
    (forall_mem_map fun s hs => isCell_of_mem_blockRow (h s hs))

def blockTitle (b : BlockSummary) : List Char :=
  b.label.toList ++ " completed blocks: ".toList ++ natText b.completed

def blockLines (b : BlockSummary) : List (List Char) := blockTitle b :: (blockTable b).lines

theorem renderBlockSummary_eq (b : BlockSummary) :
    renderBlockSummary b = (blockLines b).flatMap writeln := by
  rw [blockLines, List.flatMap_cons, ← Table.render_eq_lines]
  rfl

theorem not_mem_natText {c : Char} (h : c.isDigit = false) (k : Nat) : c ∉ natText k :=
  not_mem_toString h

@[simp] theorem readNat_natText (k : Nat) : readNat (natText k) = some k := readNat_toString k

/-- A block summary is read back, alone or in a report. -/
theorem readBlockSummary_blockLines {b : BlockSummary}
    (h : ∀ s ∈ b.perSource, IsCell s.name.toList) :
    readBlockSummary (blockLines b) = some (printedBlock b) := by
  have hsplit : rsplitOnce ' ' (blockTitle b) =
      some (b.label.toList ++ " completed blocks:".toList, natText b.completed) := by
    have htitle : blockTitle b =
        (b.label.toList ++ " completed blocks:".toList) ++ ' ' :: natText b.completed := by
      rw [blockTitle, List.append_assoc, List.append_assoc]
      rfl
    rw [htitle, rsplitOnce_append (not_mem_natText rfl b.completed)]
  have hrows := Table.readRows_lines (isFull_blockTable h)
  rw [blockTable, Table.rows_fill_new] at hrows
  rw [blockLines, readBlockSummary, hsplit, blockTable, hrows,
    mapM_map fun s _ => readBlockRow_blockRow s]
  simp [printedBlock]

/-! ## Transaction level -/

theorem readTxRow_txRow (s : TxSourceStats) : readTxRow (txRow s) = some (printedTxSource s) := by
  simp [readTxRow, txRow, printedTxSource]

theorem isCell_of_mem_txRow {s : TxSourceStats} (h : IsCell s.name.toList) :
    ∀ c ∈ txRow s, IsCell c := by
  simp [txRow, h, isCell_natText, isCell_pc, isCell_f2]

theorem isFull_txTable {tx : TxSummary} (h : ∀ s ∈ tx.perSource, IsCell s.name.toList) :
    (txTable tx).IsFull :=
  Table.isFull_fill (by decide) (forall_mem_map fun _ _ => rfl)
    (forall_mem_map fun s hs => isCell_of_mem_txRow (h s hs))

def txHeading : List Char :=
  "B. Transaction level: key = tx hash; lag behind the earliest source in ms".toList

def txCounts (tx : TxSummary) : List Char :=
  "distinct txs ".toList ++ natText tx.total ++ "   seen by all ".toList ++
    natText tx.matched ++ "   flagged swaps ".toList ++ natText tx.syntheticSwaps

def txLines (tx : TxSummary) : List (List Char) := txHeading :: txCounts tx :: (txTable tx).lines

theorem renderTxSummary_eq (tx : TxSummary) :
    renderTxSummary tx = (txLines tx).flatMap writeln := by
  rw [txLines, List.flatMap_cons, List.flatMap_cons, ← Table.render_eq_lines, ← List.append_assoc]
  rfl

theorem isField_count {heading : List Char} (h : IsField ' ' heading) (k : Nat) :
    IsField ' ' (heading ++ [' '] ++ natText k) := by
  rw [List.append_assoc]
  exact h.append (isCell_natText k).field

theorem fields_count_append {heading : List Char} (h : IsField ' ' heading) (k : Nat)
    (s : List Char) : fields ' ' (heading ++ [' '] ++ natText k ++ ("   ".toList ++ s)) =
      (heading ++ [' '] ++ natText k) :: fields ' ' s := by
  rw [show "   ".toList = [' ', ' ', ' '] from rfl]
  show fields ' ' (heading ++ [' '] ++ natText k ++ ' ' :: ' ' :: ' ' :: s) = _
  rw [fields_append (isField_count h k), fields_cons]

theorem txCounts_eq (tx : TxSummary) :
    txCounts tx = "distinct txs".toList ++ [' '] ++ natText tx.total ++
      ("   ".toList ++ ("seen by all".toList ++ [' '] ++ natText tx.matched ++
        ("   ".toList ++ ("flagged swaps".toList ++ [' '] ++ natText tx.syntheticSwaps)))) := by
  unfold txCounts
  generalize natText tx.total = total, natText tx.matched = all, natText tx.syntheticSwaps = swaps
  simp

theorem fields_txCounts (tx : TxSummary) :
    fields ' ' (txCounts tx) = ["distinct txs".toList ++ [' '] ++ natText tx.total,
      "seen by all".toList ++ [' '] ++ natText tx.matched,
      "flagged swaps".toList ++ [' '] ++ natText tx.syntheticSwaps] := by
  rw [txCounts_eq, fields_count_append (by decide), fields_count_append (by decide),
    fields_self (isField_count (by decide) _)]

theorem readCount_append (heading : List Char) (k : Nat) :
    readCount heading (heading ++ [' '] ++ natText k) = some k := by
  rw [readCount, stripPrefix_append, Option.bind_some, readNat_natText]

theorem readTxSummary_txLines {tx : TxSummary} (h : ∀ s ∈ tx.perSource, IsCell s.name.toList) :
    readTxSummary (txLines tx) = some (printedTx tx) := by
  have hrows := Table.readRows_lines (isFull_txTable h)
  rw [txTable, Table.rows_fill_new] at hrows
  rw [txLines, readTxSummary, fields_txCounts, txTable, hrows,
    mapM_map fun s _ => readTxRow_txRow s]
  simp only [readCount_append]
  rfl

/-! ## Pairs -/

theorem readIntervalRow_intervalRow (iv : IntervalStats) :
    readIntervalRow (intervalRow iv) = some (printedInterval iv) := by
  simp [readIntervalRow, intervalRow, printedInterval]

theorem readBucketRow_bucketRow (b : BucketStats) :
    readBucketRow (bucketRow b) = some (printedBucket b) := by
  simp [readBucketRow, bucketRow, printedBucket]

theorem IsCell.append_first {c : List Char} (h : IsCell c) : IsCell (c ++ " first".toList) :=
  h.append (d := "first".toList) (by decide)

theorem IsCell.append_earlier {c : List Char} (h : IsCell c) :
    IsCell (c ++ " >5ms earlier".toList) :=
  h.append (d := ">5ms earlier".toList) (by decide)

theorem isCell_of_mem_intervalRow (iv : IntervalStats) : ∀ c ∈ intervalRow iv, IsCell c := by
  have hindex : IsCell ('#' :: natText iv.index) := by
    apply isCell_of_not_whitespace (List.cons_ne_nil _ _)
    intro c hc
    rcases List.mem_cons.mp hc with rfl | hdigit
    · rfl
    · exact isWhitespace_of_isDigit (isDigit_of_mem_toString hdigit)
  have hstart : IsCell (fixed 0 iv.startS ++ ['s']) :=
    isCell_around [] ['s'] 0 iv.startS (List.forall_mem_nil _) (List.forall_mem_singleton.mpr rfl)
  simp [intervalRow, hindex, hstart, isCell_natText, isCell_pc, isCell_signed2]

theorem isCell_of_mem_bucketRow {b : BucketStats} (h : IsCell b.label.toList) :
    ∀ c ∈ bucketRow b, IsCell c := by
  have hmedian : IsCell (signed2 b.medianMs ++ " ms".toList) :=
    (isCell_signed2 b.medianMs).append (d := "ms".toList) (by decide)
  simp only [bucketRow, List.forall_mem_cons]
  exact ⟨h, isCell_natText _, isCell_pc _, isCell_natText _, isCell_pc _, hmedian,
    isCell_signed2 _, isCell_signed2 _, isCell_pc _, List.forall_mem_nil _⟩

structure PairNames (p : PairSummary) : Prop where
  reference : IsCell p.reference.toList
  other : IsCell p.other.toList
  size_source : '\n' ∉ p.sizeSource.toList
  label : ∀ b ∈ p.buckets, IsCell b.label.toList

variable {p : PairSummary}

theorem isFull_pairTable (h : PairNames p) : (pairTable p).IsFull := by
  show ((Table.new (pairHeaders p) (pairHeaders_ne_nil p)).fill [pairRow p]).IsFull
  refine Table.isFull_fill ?_ ?_ ?_
  · simp only [pairHeaders, List.forall_mem_cons]
    exact ⟨by decide, by decide, by decide, h.reference.append_first, by decide,
      h.reference.append_earlier, h.other.append_earlier, List.forall_mem_nil _⟩
  · intro cells hcells
    rw [List.mem_singleton.mp hcells]
    rfl
  · intro cells hcells
    rw [List.mem_singleton.mp hcells]
    simp [pairRow, isCell_pc, isCell_signed2]

theorem isFull_intervalTable (h : PairNames p) : (intervalTable p).IsFull := by
  refine Table.isFull_fill ?_ (forall_mem_map fun _ _ => rfl)
    (forall_mem_map fun iv _ => isCell_of_mem_intervalRow iv)
  simp only [intervalHeaders, List.forall_mem_cons]
  exact ⟨by decide, by decide, by decide, by decide, h.reference.append_first,
    List.forall_mem_nil _⟩

theorem isFull_bucketTable (h : PairNames p) : (bucketTable p).IsFull := by
  refine Table.isFull_fill ?_ (forall_mem_map fun _ _ => rfl)
    (forall_mem_map fun b hb => isCell_of_mem_bucketRow (h.label b hb))
  have hearlier : IsCell (p.reference.toList ++ " earlier by".toList) :=
    h.reference.append (d := "earlier by".toList) (by decide)
  simp only [bucketHeaders, List.forall_mem_cons]
  exact ⟨by decide, by decide, by decide, by decide, by decide, hearlier, by decide, by decide,
    h.reference.append_first, List.forall_mem_nil _⟩

def pairTitle (i : Nat) (p : PairSummary) : List Char :=
  "C".toList ++ natText (i + 1) ++ ". ".toList ++ p.reference.toList ++ " vs ".toList ++
    p.other.toList ++ ": ".toList ++ natText p.n ++ " txs seen by both; positive = ".toList ++
    p.reference.toList ++ " earlier".toList

def intervalLines (p : PairSummary) : List (List Char) :=
  if 1 < p.intervals.length then (intervalTable p).lines else []

def sizeLine (p : PairSummary) : List Char :=
  "by block size (tx count from ".toList ++ p.sizeSource.toList ++ "):".toList

def pairLines (i : Nat) (p : PairSummary) : List (List Char) :=
  pairTitle i p :: ((pairTable p).lines ++ (intervalLines p ++ sizeLine p :: (bucketTable p).lines))

theorem renderPair_eq (i : Nat) (p : PairSummary) :
    renderPair i p = (pairLines i p).flatMap writeln := by
  have hintervals : (if 1 < p.intervals.length then (intervalTable p).render else []) =
      (intervalLines p).flatMap writeln := by
    unfold intervalLines
    split
    · exact Table.render_eq_lines _
    · rfl
  have hrender : renderPair i p = writeln (pairTitle i p) ++ (pairTable p).render ++
      (if 1 < p.intervals.length then (intervalTable p).render else []) ++
      writeln (sizeLine p) ++ (bucketTable p).render := rfl
  rw [hrender, hintervals, pairLines, List.flatMap_cons, List.flatMap_append,
    List.flatMap_append, List.flatMap_cons, ← Table.render_eq_lines, ← Table.render_eq_lines]
  simp only [List.append_assoc]

theorem pairTitle_eq (i : Nat) (p : PairSummary) :
    pairTitle i p = ("C".toList ++ natText (i + 1) ++ ". ".toList ++ p.reference.toList ++
        " vs ".toList ++ p.other.toList ++ ":".toList) ++ ' ' :: natText p.n ++
      (" txs seen by both; positive = ".toList ++ p.reference.toList ++ " earlier".toList) := by
  unfold pairTitle
  generalize natText (i + 1) = number, natText p.n = count
  simp

theorem readPairCount_append (reference before : List Char) (k : Nat) :
    readPairCount reference (before ++ ' ' :: natText k ++
      (" txs seen by both; positive = ".toList ++ reference ++ " earlier".toList)) = some k := by
  unfold readPairCount
  rw [stripSuffix_append]
  show (rsplitOnce ' ' (before ++ ' ' :: natText k)).bind (fun found => readNat found.2) = some k
  rw [rsplitOnce_append (not_mem_natText rfl k)]
  exact readNat_natText k

/-! The lines between the first table and the line about the sizes. -/

theorem isSizeLine_eq_false {c : Char} {line : List Char} (hc : 'b' ≠ c) (h : [c] <+: line) :
    isSizeLine line = false := by
  obtain ⟨s, rfl⟩ := h
  rw [isSizeLine, Bool.eq_false_iff, Ne, List.isPrefixOf_iff_prefix]
  exact fun hpre => hc (List.cons_prefix_cons.mp hpre).1

theorem isSizeLine_sizeLine (p : PairSummary) : isSizeLine (sizeLine p) = true := rfl

theorem Table.prefix_line {t : Table} {c : List Char} {rest : List (List Char)} (h : t.IsFull)
    (hcells : c :: rest ∈ t.headers :: t.rows) : c <+: t.line (c :: rest) :=
  (isAligned_line hcells).left (h.isCell _ hcells c List.mem_cons_self).trimmed

theorem isSizeLine_intervalLines (h : PairNames p) :
    ∀ line ∈ intervalLines p, isSizeLine line = false := by
  intro line hline
  have hfull := isFull_intervalTable h
  unfold intervalLines at hline
  split at hline
  next =>
    rcases List.mem_cons.mp hline with rfl | hline
    · have hheaders : (intervalTable p).headers = intervalHeaders p := Table.headers_fill_new _ _ _
      have hmem : "interval".toList :: (intervalHeaders p).tail ∈
          (intervalTable p).headers :: (intervalTable p).rows := by
        rw [hheaders]
        exact List.mem_cons_self
      have hfirst := Table.prefix_line hfull hmem
      rw [hheaders]
      exact isSizeLine_eq_false (c := 'i') (by decide)
        (List.IsPrefix.trans ⟨"nterval".toList, rfl⟩ hfirst)
    rcases List.mem_cons.mp hline with rfl | hline
    · obtain ⟨c, s, hcons⟩ := List.exists_cons_of_ne_nil (Table.isLine_rule hfull).ne_nil
      have hc : c = '-' := List.eq_of_mem_replicate (hcons ▸ List.mem_cons_self)
      exact isSizeLine_eq_false (c := '-') (by decide) ⟨s, by rw [hcons, hc]; rfl⟩
    · obtain ⟨cells, hcells, rfl⟩ := List.mem_map.mp hline
      have hrow := hcells
      rw [intervalTable, Table.rows_fill_new] at hrow
      obtain ⟨iv, -, rfl⟩ := List.mem_map.mp hrow
      have hfirst := Table.prefix_line hfull (List.mem_cons_of_mem _ hcells)
      exact isSizeLine_eq_false (c := '#') (by decide)
        (List.IsPrefix.trans ⟨natText iv.index, rfl⟩ hfirst)
  next => cases hline

theorem readRows_intervalLines (h : PairNames p) :
    (readRows (intervalLines p)).mapM readIntervalRow = some (printedPair p).intervals := by
  unfold intervalLines printedPair
  split
  · have hrows := Table.readRows_lines (isFull_intervalTable h)
    rw [intervalTable, Table.rows_fill_new] at hrows
    rw [intervalTable, hrows, mapM_map fun iv _ => readIntervalRow_intervalRow iv]
  · rfl

theorem readPair_pairLines (h : PairNames p) (i : Nat) :
    readPair (pairLines i p) = some (printedPair p) := by
  have hheaders := Table.fields_headers (isFull_pairTable h)
  have hrow : fields ' ' ((pairTable p).line (pairRow p)) = pairRow p :=
    fields_line rfl ((isFull_pairTable h).isCell _ (List.mem_cons_of_mem _ List.mem_cons_self))
  have htake : (intervalLines p ++ sizeLine p :: (bucketTable p).lines).takeWhile
      (fun line => !isSizeLine line) = intervalLines p := by
    rw [List.takeWhile_append_of_pos fun line hline => by
        rw [isSizeLine_intervalLines h line hline]
        rfl,
      List.takeWhile_cons_of_neg (by rw [isSizeLine_sizeLine]; exact Bool.false_ne_true),
      List.append_nil]
  have hdrop : (intervalLines p ++ sizeLine p :: (bucketTable p).lines).dropWhile
      (fun line => !isSizeLine line) = sizeLine p :: (bucketTable p).lines := by
    rw [List.dropWhile_append_of_pos fun line hline => by
        rw [isSizeLine_intervalLines h line hline]
        rfl,
      List.dropWhile_cons_of_neg (by rw [isSizeLine_sizeLine]; exact Bool.false_ne_true)]
  have hbuckets := Table.readRows_lines (isFull_bucketTable h)
  rw [bucketTable, Table.rows_fill_new] at hbuckets
  have hlines : pairLines i p = pairTitle i p :: (pairTable p).line (pairTable p).headers ::
      (pairTable p).rule :: (pairTable p).line (pairRow p) ::
      (intervalLines p ++ sizeLine p :: (bucketTable p).lines) := rfl
  have hreference : stripSuffix " first".toList (p.reference.toList ++ " first".toList) =
      some p.reference.toList := stripSuffix_append _ _
  have hother : stripSuffix " >5ms earlier".toList (p.other.toList ++ " >5ms earlier".toList) =
      some p.other.toList := stripSuffix_append _ _
  have hcount : readPairCount p.reference.toList (pairTitle i p) = some p.n := by
    rw [pairTitle_eq, readPairCount_append]
  have hsource : stripPrefix "by block size (tx count from ".toList (sizeLine p) =
      some (p.sizeSource.toList ++ "):".toList) := by
    unfold sizeLine
    exact (congrArg _ (List.append_assoc _ _ _)).trans (stripPrefix_append _ _)
  have hend : stripSuffix "):".toList (p.sizeSource.toList ++ "):".toList) =
      some p.sizeSource.toList := stripSuffix_append _ _
  rw [hlines, readPair]
  simp only [hheaders, hrow, htake, hdrop]
  rw [show (pairTable p).headers = pairHeaders p from rfl, pairHeaders, pairRow]
  simp only [hreference, hother, hcount, hsource, hend, readDecimal_signed2, readPercent_pc,
    readRows_intervalLines h, bucketTable, hbuckets, Option.bind_eq_bind, Option.bind_some,
    mapM_map fun b _ => readBucketRow_bucketRow b, String.ofList_toList]
  rfl

end FeedBench.Report
