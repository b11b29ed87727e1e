import ReplicaRing.ReplicaMap

/-!
# Layers

A region that needs `p` primary owners everywhere is covered by `p` layers: layer `j` supplies the
`j`-th primary owner of each offset. A layer is a list of half-open spans of offsets, each owned by
one member or by nobody. Members are known by their place in the list of members here.

A fresh placement writes the members' quotas one after the other on a line of `p` times the length
of the region and cuts the line into layers:

```text
  line (p = 2):  | A A A A | B B B B | C C C C | D D D D |
  layer 0:       | A A A A | B B B B |
  layer 1:       | C C C C | D D D D |
  entries:       [A, C]     [B, D]
```

No quota exceeds the length of the region, so cutting never puts a member twice on one offset. A
placement that starts from an earlier one keeps what it can: members above their quota give up spans
from the end of the ring, and members below it are filled up with spans that nobody owns.
-/

namespace ReplicaRing

/-- The offsets from `start` up to, but not including, `start + length`, and the member that owns
them. -/
structure Span where
  start : Nat
  length : Nat
  owner : Option Nat
deriving DecidableEq

def Span.stop (s : Span) : Nat :=
  s.start + s.length

abbrev Layer := List Span

namespace Layer

/-- Joins the spans after `span` to it as long as they continue it and have its owner; empty ones
are dropped. -/
def joinFrom (span : Span) : List Span → Layer
  | [] => [span]
  | next :: rest =>
    if next.length = 0 then joinFrom span rest
    else if span.owner = next.owner ∧ span.stop = next.start then
      joinFrom { span with length := span.length + next.length } rest
    else span :: joinFrom next rest

/-- The layer with empty spans dropped and neighbours of one owner joined. -/
def tidy : List Span → Layer
  | [] => []
  | span :: rest => if span.length = 0 then tidy rest else joinFrom span rest

/-! ### Fresh layers -/

/-- The quotas one after the other on a line, from `start` on; `member` is the place of the first
one. -/
def line (start member : Nat) : List Nat → List Span
  | [] => []
  | quota :: rest => ⟨start, quota, some member⟩ :: line (start + quota) (member + 1) rest

/-- The part of a span on the line that lies in layer `j`, if there is one. -/
def cut? (size j : Nat) (s : Span) : Option Span :=
  let start := max s.start (j * size)
  let stop := min s.stop ((j + 1) * size)
  if start < stop then some ⟨start - j * size, stop - start, s.owner⟩ else none

/-- The layers of a placement that starts from nothing. -/
def fresh (quotas : List Nat) (replicas size : Nat) : List Layer :=
  (List.range replicas).map fun j => (line 0 0 quotas).filterMap (cut? size j)

/-! ### Layers of an earlier ring -/

/-- The layer that lists the `j`-th primary owner of every entry. Owners that are no members own
nothing any more. -/
def ofEntries (members : List NodeId) (origin : Nat) (entries : List Entry) (j : Nat) : Layer :=
  tidy <| entries.map fun e =>
    ⟨e.region.first - origin, e.region.size, (e.owners.primary[j]?).bind (members.idxOf? ·)⟩

/-- The number of slots that a member holds in all layers together. -/
def holding (layers : List Layer) (member : Nat) : Nat :=
  sumOf ((layers.flatten.filter fun s => s.owner = some member).map Span.length)

/-! ### Releasing -/

/-- Takes up to `surplus` slots of a member from the end of a layer. The result is the layer and the
surplus that is left. -/
def releaseFrom (member surplus : Nat) (layer : Layer) : Layer × Nat :=
  layer.foldr (fun s (rest, surplus) =>
    if s.owner = some member ∧ 0 < surplus then
      let cut := min surplus s.length
      if cut = s.length then (⟨s.start, s.length, none⟩ :: rest, surplus - cut)
      else
        -- A span that is not given up as a whole keeps its front.
        let kept := s.length - cut
        (⟨s.start, kept, s.owner⟩ :: ⟨s.start + kept, cut, none⟩ :: rest, surplus - cut)
    else (s :: rest, surplus)) ([], surplus)

/-- Takes up to `surplus` slots of a member from the layers, the last layer first. -/
def releaseMember (member surplus : Nat) (layers : List Layer) : List Layer :=
  (layers.foldr (fun layer (rest, surplus) =>
    let (layer, surplus) := releaseFrom member surplus layer
    (layer :: rest, surplus)) ([], surplus)).1

/-- Makes every member give up what it holds above its quota. -/
def release (quotas : List Nat) (layers : List Layer) : List Layer :=
  quotas.zipIdx.foldl (fun layers (quota, member) =>
    releaseMember member (holding layers member - quota) layers) layers

/-! ### Filling -/

/-- Joins the runs after one from `start` to `stop` to it as long as they touch it; runs are
half-open and come in order. -/
def uniteFrom (start stop : Nat) : List (Nat × Nat) → List (Nat × Nat)
  | [] => [(start, stop)]
  | (a, b) :: rest =>
    if a ≤ stop then uniteFrom start (max stop b) rest else (start, stop) :: uniteFrom a b rest

/-- The union of half-open runs that come in order. -/
def unite : List (Nat × Nat) → List (Nat × Nat)
  | [] => []
  | (a, b) :: rest => uniteFrom a b rest

/-- The order of runs: by start, then by end. -/
def runPrecedes (a b : Nat × Nat) : Bool :=
  a.1 < b.1 || (a.1 == b.1 && a.2 ≤ b.2)

/-- The offsets that a member holds in any layer, as disjoint runs in order. -/
def occupied (layers : List Layer) (member : Nat) : List (Nat × Nat) :=
  unite <| sortBy runPrecedes <|
    (layers.flatten.filter fun s => s.owner = some member).map fun s => (s.start, s.stop)

/-- The parts of the run from `start` to `stop` that are in none of the given runs, which come in
order. -/
def freeRuns (start stop : Nat) : List (Nat × Nat) → List (Nat × Nat)
  | [] => if start < stop then [(start, stop)] else []
  | (a, b) :: rest =>
    -- The first given run lies before the run, after it, or shares an offset with it.
    if b ≤ start then freeRuns start stop rest
    else if stop ≤ a then if start < stop then [(start, stop)] else []
    else (if start < a then [(start, a)] else []) ++
      if stop ≤ b then [] else freeRuns b stop rest

/-- The span without an owner from `start` to `stop`, if there is anything between them. -/
def unowned (start stop : Nat) : List Span :=
  if start < stop then [⟨start, stop - start, none⟩] else []

/-- Gives a member up to `need` offsets of the offsets left free in a span without an owner that
reaches from `start` to `stop`. The result is the pieces of the span and the need that is left. -/
def fillRuns (member : Nat) (start stop need : Nat) : List (Nat × Nat) → List Span × Nat
  | [] => (unowned start stop, need)
  | (a, b) :: rest =>
    if need = 0 then (unowned start stop, need)
    else
      let taken := min (b - a) need
      let (pieces, need) := fillRuns member (a + taken) stop (need - taken) rest
      (unowned start a ++ ⟨a, taken, some member⟩ :: pieces, need)

/-- Gives a member up to `need` offsets of a layer that nobody owns and that it does not occupy. -/
def fillSpans (member : Nat) (taken : List (Nat × Nat)) (need : Nat) : List Span → List Span × Nat
  | [] => ([], need)
  | s :: rest =>
    if s.owner.isSome ∨ need = 0 then
      let (spans, need) := fillSpans member taken need rest
      (s :: spans, need)
    else
      let (pieces, need) := fillRuns member s.start s.stop need (freeRuns s.start s.stop taken)
      let (spans, need) := fillSpans member taken need rest
      (pieces ++ spans, need)

/-- Gives a member up to `need` offsets of the layers after the ones that are `done`. What it takes
in one layer is occupied in the later ones. -/
def fillLayers (member : Nat) (done : List Layer) (need : Nat) :
    List Layer → List Layer × Nat
  | [] => (done, need)
  | layer :: rest =>
    if need = 0 then (done ++ layer :: rest, 0)
    else
      -- `done` is counted as well: the member may not own an offset of it again.
      let (spans, need) := fillSpans member (occupied (done ++ layer :: rest) member) need layer
      fillLayers member (done ++ [tidy spans]) need rest

/-- Fills every member up to its quota, from member `member` on, or finds that one of them cannot
reach it without owning an offset twice. -/
def fillFrom? (member : Nat) (layers : List Layer) : List Nat → Option (List Layer)
  | [] => some layers
  | quota :: rest =>
    let (layers, need) := fillLayers member [] (quota - holding layers member) layers
    if need = 0 then fillFrom? (member + 1) layers rest else none

/-- Fills every member up to its quota, if that works out. -/
def fill? (quotas : List Nat) (layers : List Layer) : Option (List Layer) :=
  fillFrom? 0 layers quotas

end Layer

end ReplicaRing
