import FeedBench.Report.Proofs.Sections

/-!
# The report read back

The sections of a report are apart by blank lines, and no line of a section is blank, so a reader
finds them, whatever the header shows.
-/

namespace FeedBench.Report

open Stats Text Lib Columns

/-! ## The header -/

/-- The texts of the header are in one line each. -/
structure HeaderTexts (cover : Cover) (h : Main.Header) : Prop where
  tool : '\n' ∉ cover.tool
  version : '\n' ∉ cover.version
  start_utc : '\n' ∉ cover.startUtc
  end_utc : '\n' ∉ cover.endUtc
  hostname : '\n' ∉ cover.hostname
  stamp : '\n' ∉ cover.stamp
  fairness_note : '\n' ∉ cover.fairnessNote
  place : ∀ place ∈ cover.places, '\n' ∉ place.target ∧ '\n' ∉ place.level
  source : ∀ s ∈ h.sources, '\n' ∉ s.info.name.toList ∧ '\n' ∉ s.info.kind.toList ∧
    '\n' ∉ s.detail.toList

def sourceLines (s : Main.SourceReport) (place : Place) : List (List Char) :=
  let level := if place.level.isEmpty then [] else "   level ".toList ++ place.level
  let bytes :=
    if 0 < s.wireBytes then "   rx ".toList ++ megabytes s.wireBytes ++ " MB".toList else []
  ["  ".toList ++ padEnd 10 s.info.name.toList ++ " ".toList ++
      padEnd 7 s.info.kind.toList ++ " ".toList ++ place.target ++ level,
    "  ".toList ++ padEnd 10 [] ++ " ".toList ++ s.detail.toList ++
      "   reconnects ".toList ++ natText s.reconnects.toNat ++
      "   blocks ".toList ++ natText s.blockEvents.toNat ++
      "   txs ".toList ++ natText s.txEvents.toNat ++
      " (".toList ++ megabytes s.rawTxBytes ++ " MB raw)".toList ++ bytes]

theorem renderSource_eq (s : Main.SourceReport) (place : Place) :
    renderSource s place = (sourceLines s place).flatMap writeln := by
  rw [sourceLines, List.flatMap_cons, List.flatMap_singleton]
  rfl

def headLines (cover : Cover) (h : Main.Header) : List (List Char) :=
  [cover.tool ++ " ".toList ++ cover.version ++ "  Robinhood Chain (chain id ".toList ++
      natText cover.chainId ++ ")".toList,
    "start    ".toList ++ cover.startUtc,
    "end      ".toList ++ cover.endUtc ++ "   duration ".toList ++ fixed 1 h.durationS ++
      " s".toList ++ if h.interrupted then "   (interrupted)".toList else [],
    "host     ".toList ++ cover.hostname,
    "stamp    ".toList ++ cover.stamp ++ "   warmup ".toList ++ fixed 0 h.warmupS ++
      " s   min-sources ".toList ++ natText h.minSources,
    "sources".toList]

def footLines (cover : Cover) (h : Main.Header) : List (List Char) :=
  ["window   ".toList ++ fixed 1 h.windowS ++
      " s with every source connected   matched blocks ".toList ++ natText h.matchedBlocks ++
      "   matched txs ".toList ++ natText h.matchedTxs,
    "note     ".toList ++ cover.fairnessNote]

def headerLines (cover : Cover) (h : Main.Header) : List (List Char) :=
  headLines cover h ++ (List.zipWith sourceLines h.sources cover.places).flatten ++
    footLines cover h

theorem flatten_zipWith_renderSource (sources : List Main.SourceReport) (places : List Place) :
    (List.zipWith renderSource sources places).flatten =
      (List.zipWith sourceLines sources places).flatten.flatMap writeln := by
  induction sources generalizing places with
  | nil => rfl
  | cons s sources ih =>
      cases places with
      | nil => rfl
      | cons place places =>
          rw [List.zipWith_cons_cons, List.zipWith_cons_cons, List.flatten_cons, List.flatten_cons,
            List.flatMap_append, ← renderSource_eq, ih]

theorem renderHeader_eq (cover : Cover) (h : Main.Header) :
    renderHeader cover h = (headerLines cover h).flatMap writeln := by
  have hhead : renderHeader cover h = (headLines cover h).flatMap writeln ++
      (List.zipWith renderSource h.sources cover.places).flatten ++
      (footLines cover h).flatMap writeln := by
    simp only [renderHeader, headLines, footLines, List.flatMap_cons, List.flatMap_nil,
      List.append_nil, List.append_assoc]
  rw [hhead, headerLines, List.flatMap_append, List.flatMap_append, flatten_zipWith_renderSource]

theorem IsLine.append {s t : List Char} (hs : IsLine s) (ht : '\n' ∉ t) : IsLine (s ++ t) where
  ne_nil := List.append_ne_nil_of_left_ne_nil hs.ne_nil t
  one_line := List.not_mem_append hs.one_line ht

theorem isLine_append_right {s t : List Char} (hs : '\n' ∉ s) (ht : IsLine t) :
    IsLine (s ++ t) where
  ne_nil := List.append_ne_nil_of_right_ne_nil s ht.ne_nil
  one_line := List.not_mem_append hs ht.one_line

theorem IsLine.append_nat {s : List Char} (hs : IsLine s) (k : Nat) : IsLine (s ++ natText k) :=
  hs.append (not_mem_natText rfl k)

theorem IsLine.append_fixed {s : List Char} (hs : IsLine s) (d : Nat) (x : ℚ) :
    IsLine (s ++ fixed d x) :=
  hs.append (isCell_fixed d x).one_line

variable {cover : Cover} {h : Main.Header}

theorem isLine_headLines (htexts : HeaderTexts cover h) :
    ∀ line ∈ headLines cover h, IsLine line := by
  have hinterrupted : '\n' ∉ if h.interrupted then "   (interrupted)".toList else [] := by
    split
    all_goals decide
  have htool : IsLine (cover.tool ++ " ".toList) :=
    isLine_append_right htexts.tool ⟨by decide, by decide⟩
  have hstart : IsLine "start    ".toList := ⟨by decide, by decide⟩
  have hend : IsLine "end      ".toList := ⟨by decide, by decide⟩
  have hhost : IsLine "host     ".toList := ⟨by decide, by decide⟩
  have hstamp : IsLine "stamp    ".toList := ⟨by decide, by decide⟩
  simp only [headLines, List.forall_mem_cons]
  refine ⟨?_, ?_, ?_, ?_, ?_, ⟨by decide, by decide⟩, List.forall_mem_nil _⟩
  · exact (((htool.append htexts.version).append (by decide)).append_nat _).append (by decide)
  · exact hstart.append htexts.start_utc
  · exact ((((hend.append htexts.end_utc).append (by decide)).append_fixed _ _).append
      (by decide)).append hinterrupted
  · exact hhost.append htexts.hostname
  · exact ((((hstamp.append htexts.stamp).append (by decide)).append_fixed _ _).append
      (by decide)).append_nat _

theorem isLine_footLines (htexts : HeaderTexts cover h) :
    ∀ line ∈ footLines cover h, IsLine line := by
  have hwindow : IsLine "window   ".toList := ⟨by decide, by decide⟩
  have hnote : IsLine "note     ".toList := ⟨by decide, by decide⟩
  simp only [footLines, List.forall_mem_cons]
  refine ⟨?_, ?_, List.forall_mem_nil _⟩
  · exact ((((hwindow.append_fixed _ _).append (by decide)).append_nat _).append
      (by decide)).append_nat _
  · exact hnote.append htexts.fairness_note

theorem not_mem_padEnd {w : Nat} {s : List Char} (hs : '\n' ∉ s) : '\n' ∉ padEnd w s :=
  List.not_mem_append hs fun hmem => absurd (List.eq_of_mem_replicate hmem) (by decide)

theorem isLine_sourceLines {s : Main.SourceReport} {place : Place}
    (hsource : '\n' ∉ s.info.name.toList ∧ '\n' ∉ s.info.kind.toList ∧ '\n' ∉ s.detail.toList)
    (hplace : '\n' ∉ place.target ∧ '\n' ∉ place.level) :
    ∀ line ∈ sourceLines s place, IsLine line := by
  have hindent : IsLine "  ".toList := ⟨by decide, by decide⟩
  have hlevel : '\n' ∉ if place.level.isEmpty then [] else "   level ".toList ++ place.level := by
    split
    · exact List.not_mem_nil
    · exact List.not_mem_append (by decide) hplace.2
  have hbytes : '\n' ∉ if 0 < s.wireBytes then
      "   rx ".toList ++ megabytes s.wireBytes ++ " MB".toList else [] := by
    split
    · exact List.not_mem_append (List.not_mem_append (by decide) (isCell_fixed _ _).one_line)
        (by decide)
    · exact List.not_mem_nil
  simp only [sourceLines, List.forall_mem_cons]
  refine ⟨?_, ?_, List.forall_mem_nil _⟩
  · exact (((((hindent.append (not_mem_padEnd hsource.1)).append (by decide)).append
      (not_mem_padEnd hsource.2.1)).append (by decide)).append hplace.1).append hlevel
  · exact ((((((((((((hindent.append (not_mem_padEnd List.not_mem_nil)).append (by decide)).append
      hsource.2.2).append (by decide)).append_nat _).append (by decide)).append_nat _).append
      (by decide)).append_nat _).append (by decide)).append_fixed _ _).append (by decide)).append
      hbytes

theorem isLine_headerLines (htexts : HeaderTexts cover h) :
    ∀ line ∈ headerLines cover h, IsLine line := by
  intro line hline
  rcases List.mem_append.mp hline with hline | hfoot
  · rcases List.mem_append.mp hline with hhead | hsources
    · exact isLine_headLines htexts line hhead
    · obtain ⟨lines, hlines, hmem⟩ := List.mem_flatten.mp hsources
      rw [← List.map_uncurry_zip_eq_zipWith] at hlines
      obtain ⟨pair, hpair, rfl⟩ := List.mem_map.mp hlines
      have hsides := List.of_mem_zip hpair
      exact isLine_sourceLines (htexts.source _ hsides.1) (htexts.place _ hsides.2) line hmem
  · exact isLine_footLines htexts line hfoot

/-! ## Sections -/

structure TableNames (r : Main.Report) : Prop where
  label : '\n' ∉ r.block.label.toList
  block : ∀ s ∈ r.block.perSource, IsCell s.name.toList
  tx : ∀ s ∈ r.tx.perSource, IsCell s.name.toList
  pair : ∀ p ∈ r.pairs, PairNames p

def blockHeading : List Char :=
  ("A. Block level: first source to deliver a block wins; " ++
    "delay behind the winner in ms").toList

def percentilesNote : List Char :=
  ("percentiles: nearest rank; ms with two decimals; " ++
    "win% and first% over matched blocks/txs").toList

def sections (cover : Cover) (r : Main.Report) : List (List (List Char)) :=
  headerLines cover r.header :: (blockHeading :: blockLines r.block) :: txLines r.tx ::
    r.pairs.mapIdx pairLines

def sectionText (lines : List (List Char)) : List Char := lines.flatMap writeln ++ ['\n']

theorem flatMap_writeln_sections (sections : List (List (List Char))) :
    (sections.flatMap fun lines => lines ++ [[]]).flatMap writeln =
      sections.flatMap sectionText := by
  rw [List.flatMap_assoc]
  congr 1
  funext lines
  rw [List.flatMap_append, List.flatMap_singleton]
  rfl

theorem flatten_mapIdx_renderPair (pairs : List PairSummary) :
    (pairs.mapIdx fun i p => renderPair i p ++ ['\n']).flatten =
      (pairs.mapIdx pairLines).flatMap sectionText := by
  have hpair : ∀ i p, renderPair i p ++ ['\n'] = sectionText (pairLines i p) := by
    intro i p
    rw [sectionText, renderPair_eq]
  rw [List.flatMap_def, List.mapIdx_eq_zipIdx_map, List.mapIdx_eq_zipIdx_map, List.map_map]
  exact congrArg List.flatten (List.map_congr_left fun x _ => hpair x.2 x.1)

theorem render_eq_sections (cover : Cover) (r : Main.Report) :
    r.render cover = ((sections cover r).flatMap fun lines => lines ++ [[]]).flatMap writeln ++
      percentilesNote := by
  have hblock : sectionText (blockHeading :: blockLines r.block) =
      writeln blockHeading ++ renderBlockSummary r.block ++ ['\n'] := by
    rw [sectionText, List.flatMap_cons, renderBlockSummary_eq]
  have hrender : r.render cover = renderHeader cover r.header ++ ['\n'] ++ writeln blockHeading ++
      renderBlockSummary r.block ++ ['\n'] ++ renderTxSummary r.tx ++ ['\n'] ++
      (r.pairs.mapIdx fun i p => renderPair i p ++ ['\n']).flatten ++ percentilesNote := rfl
  have hsections : (sections cover r).flatMap sectionText =
      sectionText (headerLines cover r.header) ++
        (sectionText (blockHeading :: blockLines r.block) ++
          (sectionText (txLines r.tx) ++ (r.pairs.mapIdx pairLines).flatMap sectionText)) := by
    rw [sections, List.flatMap_cons, List.flatMap_cons, List.flatMap_cons]
  rw [flatMap_writeln_sections, hsections, hblock, sectionText, sectionText, ← renderHeader_eq,
    ← renderTxSummary_eq, ← flatten_mapIdx_renderPair, hrender]
  simp only [List.append_assoc]

theorem isLine_blockLines {b : BlockSummary} (hlabel : '\n' ∉ b.label.toList)
    (h : ∀ s ∈ b.perSource, IsCell s.name.toList) : ∀ line ∈ blockLines b, IsLine line := by
  rw [blockLines, List.forall_mem_cons]
  refine ⟨?_, fun _ => Table.isLine_of_mem_lines (isFull_blockTable h)⟩
  exact (isLine_append_right hlabel ⟨by decide, by decide⟩).append_nat _

theorem isLine_txLines {tx : TxSummary} (h : ∀ s ∈ tx.perSource, IsCell s.name.toList) :
    ∀ line ∈ txLines tx, IsLine line := by
  have hcounts : IsLine "distinct txs ".toList := ⟨by decide, by decide⟩
  rw [txLines, List.forall_mem_cons, List.forall_mem_cons]
  refine ⟨⟨by decide, by decide⟩, ?_, fun _ => Table.isLine_of_mem_lines (isFull_txTable h)⟩
  exact ((((hcounts.append_nat _).append (by decide)).append_nat _).append
    (by decide)).append_nat _

theorem isLine_pairLines {p : PairSummary} (h : PairNames p) (i : Nat) :
    ∀ line ∈ pairLines i p, IsLine line := by
  have htitle : IsLine (pairTitle i p) := by
    have hfirst : IsLine "C".toList := ⟨by decide, by decide⟩
    exact ((((((((((hfirst.append_nat _).append (by decide)).append h.reference.one_line).append
      (by decide)).append h.other.one_line).append (by decide)).append_nat _).append
      (by decide)).append h.reference.one_line).append (by decide))
  have hsize : IsLine (sizeLine p) := by
    have hfirst : IsLine "by block size (tx count from ".toList := ⟨by decide, by decide⟩
    exact (hfirst.append h.size_source).append (by decide)
  have hintervals : ∀ line ∈ intervalLines p, IsLine line := by
    unfold intervalLines
    split
    · exact fun _ => Table.isLine_of_mem_lines (isFull_intervalTable h)
    · exact List.forall_mem_nil _
  rw [pairLines, List.forall_mem_cons, List.forall_mem_append, List.forall_mem_append,
    List.forall_mem_cons]
  exact ⟨htitle, fun _ => Table.isLine_of_mem_lines (isFull_pairTable h), hintervals, hsize,
    fun _ => Table.isLine_of_mem_lines (isFull_bucketTable h)⟩

theorem readSummary_renderBlockSummary {b : BlockSummary} (hlabel : '\n' ∉ b.label.toList)
    (h : ∀ s ∈ b.perSource, IsCell s.name.toList) :
    readSummary (renderBlockSummary b) = some (printedBlock b) := by
  have hlines : ∀ line ∈ blockLines b, '\n' ∉ line := fun line hline =>
    (isLine_blockLines hlabel h line hline).one_line
  have hsplit := splitOn_flatMap_append hlines []
  rw [List.append_nil, List.splitOn_nil] at hsplit
  have htext : (renderBlockSummary b).splitOn '\n' = blockLines b ++ [[]] := by
    rw [renderBlockSummary_eq]
    exact hsplit
  rw [readSummary, htext, List.dropLast_concat, readBlockSummary_blockLines h]

variable {r : Main.Report}

theorem isLine_sections (htexts : HeaderTexts cover r.header) (hnames : TableNames r) :
    ∀ lines ∈ sections cover r, ∀ line ∈ lines, IsLine line := by
  simp only [sections, List.forall_mem_cons]
  refine ⟨isLine_headerLines htexts, ⟨⟨by decide, by decide⟩,
    isLine_blockLines hnames.label hnames.block⟩, isLine_txLines hnames.tx, ?_⟩
  intro lines hlines
  obtain ⟨i, hi, rfl⟩ := List.mem_mapIdx.mp hlines
  exact isLine_pairLines (hnames.pair _ (List.getElem_mem hi)) i

/-- The lines are found at the line breaks, and the sections at the blank lines. -/
theorem splitOn_render (htexts : HeaderTexts cover r.header) (hnames : TableNames r) :
    ((r.render cover).splitOn '\n').splitOn [] = sections cover r ++ [[percentilesNote]] := by
  have hlines := isLine_sections htexts hnames
  have hnewline : ∀ line ∈ (sections cover r).flatMap fun lines => lines ++ [[]], '\n' ∉ line := by
    intro line hline
    obtain ⟨lines, hsection, hmem⟩ := List.mem_flatMap.mp hline
    rcases List.mem_append.mp hmem with hmem | hblank
    · exact (hlines lines hsection line hmem).one_line
    · rw [List.mem_singleton.mp hblank]
      exact List.not_mem_nil
  have hblank : ∀ lines ∈ sections cover r, [] ∉ lines := fun lines hsection hmem =>
    (hlines lines hsection [] hmem).ne_nil rfl
  have hnote : percentilesNote.splitOn '\n' = [percentilesNote] :=
    List.splitOn_eq_singleton (by decide)
  have hlast : [percentilesNote].splitOn [] = [[percentilesNote]] :=
    List.splitOn_eq_singleton (by decide)
  rw [render_eq_sections]
  calc _ = (((sections cover r).flatMap fun lines => lines ++ [[]]) ++
        percentilesNote.splitOn '\n').splitOn [] :=
        congrArg (List.splitOn []) (splitOn_flatMap_append hnewline percentilesNote)
    _ = sections cover r ++ [[percentilesNote]] := by
        rw [hnote, splitOn_flatMap_append hblank, hlast]

theorem mapM_readPair {pairs : List PairSummary} (h : ∀ p ∈ pairs, PairNames p) :
    (pairs.mapIdx pairLines).mapM readPair = some (pairs.map printedPair) := by
  have hread : ∀ x ∈ pairs.zipIdx, readPair (pairLines x.2 x.1) = some (printedPair x.1) :=
    fun x hx => readPair_pairLines (h x.1 (List.fst_mem_of_mem_zipIdx hx)) x.2
  rw [List.mapIdx_eq_zipIdx_map, mapM_map hread]
  congr 1
  calc pairs.zipIdx.map (fun x => printedPair x.1)
      = (pairs.zipIdx.map Prod.fst).map printedPair := by
        rw [List.map_map]
        rfl
    _ = pairs.map printedPair := by rw [List.zipIdx_map_fst]

/-- A report is read back. -/
theorem read_render (htexts : HeaderTexts cover r.header) (hnames : TableNames r) :
    read (r.render cover) = some (printed r) := by
  have hpairs := mapM_readPair hnames.pair
  unfold read
  rw [splitOn_render htexts hnames, sections]
  simp only [List.cons_append, List.tail_cons, List.dropLast_concat, hpairs,
    readBlockSummary_blockLines hnames.block, readTxSummary_txLines hnames.tx,
    Option.bind_eq_bind, Option.bind_some]
  rfl

end FeedBench.Report
