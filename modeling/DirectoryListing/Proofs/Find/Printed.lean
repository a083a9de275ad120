import DirectoryListing.Proofs.Find.Strategies
import DirectoryListing.Proofs.Listing.Entries
import DirectoryListing.Proofs.Node.OwnPaths

/-!
# What the printed paths name

The tree of a listing may hold siblings of one name, and names that read as something else in a
path. Where it holds none of either, the paths that are found name the finds exactly: no path comes
twice, each leads from the start down to a find, and each find has its path among them. No name of a
listing holds a line feed, so the lines that are printed are these paths.

## Main results

* `Search.emit_eq`: all paths are printed and counted
* `Search.split_text_emit`: what is printed from a listing is, line by line, what is found
* `Find.paths_name_finds`: the paths found are those of the finds, and lead to them
-/

namespace DirectoryListing

variable {e : Expr} {strict : Bool} {lines : List Text} {t : Tree} {start n : Node}

namespace Search

/-- **All paths are printed and counted.** -/
theorem emit_eq (he : e.isPure = true) (order : Strategy) (start : Node) :
    let outcome := (new e (.empty order)).paths start
    (new e (.empty order)).emit start =
      ⟨printed outcome.found, .ok outcome.found.length, outcome⟩ := by
  intro outcome
  rw [emit, failure_paths he]
  simp only [foldl_writePath, List.nil_append, Nat.zero_add, outcome]

/-- The paths of the finds in the tree of a listing stand on one line each. -/
theorem not_mem_found_paths (he : e.isPure = true)
    (hparse : (Listing.parse strict lines).result = .ok t)
    (hstart : start ∈ (Node.ofTree t).preorder) (order : Strategy) :
    ∀ p ∈ ((new e (.empty order)).paths start).found, '\n' ∉ p := by
  intro p hp hfeed
  obtain ⟨n, hn, -, rfl⟩ := (mem_found_paths_iff he).mp hp
  rcases Node.mem_pathFrom hstart hn hfeed with dot | slash | ⟨m, hm, hname⟩
  · exact absurd dot (by decide)
  · exact absurd slash (by decide)
  · exact Listing.not_mem_name hparse m hm hname

/-- **What is printed** of the finds in the tree of a listing is, line by line, their paths, and the
last line is ended. -/
theorem split_text_emit (he : e.isPure = true)
    (hparse : (Listing.parse strict lines).result = .ok t)
    (hstart : start ∈ (Node.ofTree t).preorder) (order : Strategy) :
    ((new e (.empty order)).emit start).text.split '\n' =
      ((new e (.empty order)).paths start).found ++ [[]] := by
  rw [emit_eq he]
  exact Text.split_flatMap (not_mem_found_paths he hparse hstart order)

/-- **No path is found twice**, where the names of siblings tell them apart. -/
theorem nodup_found_paths (he : e.isPure = true) (hnames : start.NamesApart) (order : Strategy) :
    ((new e (.empty order)).paths start).found.Nodup := by
  rw [paths_eq he]
  refine List.Nodup.map_on (fun m hm n hn heq => ?_)
    ((nodup_order_schedule_empty order start).filter _)
  exact hnames.pathFrom_injective (mem_order_schedule_empty.mp (List.mem_filter.mp hm).1)
    (mem_order_schedule_empty.mp (List.mem_filter.mp hn).1) heq

end Search

namespace Find

variable {tokens : List Text} {choice : Strategy.Choice} {order : Strategy}

/-- **Printed paths name exactly the finds.** In the tree of a listing in which the names of children
tell them apart, a query that is asked from any start and in any order finds its paths without an
error, and none twice. The dot is found when the query holds of the start; any other path leads from
the start, which is a directory then, to a node that the query holds of; and each such node below the
start has its path found. What is printed are the paths found, a line each, and their number is
told. -/
theorem paths_name_finds (hparse : (Listing.parse strict lines).result = .ok t)
    (hnames : (Node.ofTree t).NamesApart) (hstart : start ∈ (Node.ofTree t).preorder)
    (hq : Query.parse tokens = .ok e) (hc : choice.strategy = .ok order) :
    ∃ finding, paths start tokens choice = .ok finding ∧
      finding.outcome.failure = none ∧
      finding.outcome.found.Nodup ∧
      (['.'] ∈ finding.outcome.found ↔ e.holds start = .ok true) ∧
      (∀ p ∈ finding.outcome.found, p ≠ ['.'] →
        start.isDirectory = true ∧ ∃ n, start.descend p = .ok n ∧ e.holds n = .ok true) ∧
      (∀ n ∈ start.preorder, n ≠ start → e.holds n = .ok true →
        ∃ p ∈ finding.outcome.found, n.relativePath start = .ok p) ∧
      let emission := (Search.new e (.empty order)).emit start
      emission.text.split '\n' = finding.outcome.found ++ [[]] ∧
        emission.count = .ok finding.outcome.found.length := by
  have pure := Query.isPure_of_parse hq
  have apart := hnames.of_mem_preorder hstart
  have found : ∀ p, p ∈ ((Search.new e (.empty order)).paths start).found ↔
      ∃ n ∈ start.preorder, e.accepts n = true ∧ Node.pathFrom start n = p := fun p =>
    Search.mem_found_paths_iff pure
  refine ⟨_, paths_eq hc hq start, Search.failure_paths pure order start,
    Search.nodup_found_paths pure apart order, ?dot, ?leads, ?told,
    Search.split_text_emit pure hparse hstart order, by rw [Search.emit_eq pure]⟩
  case dot =>
    constructor
    · intro dot
      obtain ⟨n, hn, accepted, path⟩ := (found _).mp dot
      rw [(apart.pathFrom_eq_dot_iff hn).mp path] at accepted
      exact Expr.accepts_iff.mp accepted
    · intro holds
      exact (found _).mpr ⟨start, start.mem_preorder_self, Expr.accepts_iff.mpr holds,
        start.pathFrom_self⟩
  case leads =>
    intro p hp hdot
    obtain ⟨n, hn, accepted, rfl⟩ := (found _).mp hp
    -- a path other than the dot is that of a node below the start
    have hne : n ≠ start := fun h => hdot ((apart.pathFrom_eq_dot_iff hn).mpr h)
    obtain ⟨directory, -, leads⟩ := apart.descend_pathFrom hn hne
    exact ⟨directory, n, leads, Expr.accepts_iff.mp accepted⟩
  case told =>
    intro n hn hne hholds
    exact ⟨Node.pathFrom start n, (found _).mpr ⟨n, hn, Expr.accepts_iff.mpr hholds, rfl⟩,
      (Node.relativePath_of_mem_preorder hn).1⟩

/-- A listing of a directory and a file, with a file of the same name in the directory. -/
def sameNames : List Text :=
  [".:".toList, "total 0".toList, "drwxr-xr-x 2 u g 0 Jan 1 00:00 a".toList,
    "-rw-r--r-- 1 u g 1 Jan 1 00:00 f".toList, [],
    "./a:".toList, "total 0".toList, "-rw-r--r-- 1 u g 1 Jan 1 00:00 f".toList]

/-- Its tree. -/
def sameNamesTree : Tree :=
  .directory .root [
    .directory ⟨"drwxr-xr-x 2 u g 0 Jan 1 00:00 a".toList, ['a'], 0⟩ [
      .file ⟨"-rw-r--r-- 1 u g 1 Jan 1 00:00 f".toList, ['f'], 1⟩],
    .file ⟨"-rw-r--r-- 1 u g 1 Jan 1 00:00 f".toList, ['f'], 1⟩]

/-- The two files of one name are told apart by their paths. -/
theorem paths_name_finds_sameNames :
    (Listing.parse true sameNames).result = .ok sameNamesTree ∧
    (Node.ofTree sameNamesTree).NamesApart ∧
    Query.parse Query.filesQuery = .ok (.kind .file) ∧
    ∃ finding, paths (.ofTree sameNamesTree) Query.filesQuery (.exactly .breadthFirst) =
        .ok finding ∧
      finding.outcome.found.Nodup ∧ ['.'] ∉ finding.outcome.found ∧
      ['f'] ∈ finding.outcome.found ∧ "a/f".toList ∈ finding.outcome.found := by
  have hparse : (Listing.parse true sameNames).result = .ok sameNamesTree :=
    Listing.eq_ok_of_toOption (by decide +kernel)
  have hnames : (Node.ofTree sameNamesTree).NamesApart := ⟨by decide +kernel, by decide +kernel⟩
  have hq := Query.parse_filesQuery
  have hc : Strategy.Choice.strategy (.exactly .breadthFirst) = .ok .breadthFirst := rfl
  obtain ⟨finding, hpaths, -, nodup, dot, -, told, -⟩ :=
    paths_name_finds hparse hnames (Node.mem_preorder_self _) hq hc
  have found : ∀ a n p, (Node.ofTree sameNamesTree).follow a = some n →
      n ≠ .ofTree sameNamesTree → (Expr.kind .file).holds n = .ok true →
      n.relativePath (.ofTree sameNamesTree) = .ok p → p ∈ finding.outcome.found := by
    intro a n p ha hne hholds path
    obtain ⟨q, hq, same⟩ := told n (Node.mem_preorder_iff.mpr ⟨a, ha⟩) hne hholds
    rwa [← Except.ok.inj (same.symm.trans path)]
  refine ⟨hparse, hnames, hq, finding, hpaths, nodup, fun h => ?_, ?_, ?_⟩
  · cases dot.mp h
  · exact found [1] _ _ rfl nofun rfl rfl
  · exact found [0, 0] _ _ rfl nofun rfl rfl

end Find

end DirectoryListing
