import CodeAtlas.Document
import CodeAtlas.Proofs.Boundaries
import CodeAtlas.Proofs.Spacing
import Mathlib.Data.List.Chain
import Mathlib.Data.List.Forall2

/-!
Two layouts of one text. The text of a node is that of its leaves with what stands between them. If
two trees have the same rows apart from spans, their leaves say the same and have blanks between them
at the same places, then corresponding nodes say the same up to those blanks.
-/
namespace CodeAtlas

namespace SourceText
variable {text : SourceText}

theorem slice_eq {front middle back : List Char} (split : text.chars = front ++ (middle ++ back)) :
    text.slice ⟨byteLength front, byteLength front + byteLength middle⟩ = middle := by
  unfold slice
  dsimp only
  rw [split, dropBytes?_byteLength, Nat.add_sub_cancel_left, Option.bind_some, takeBytes?_byteLength]
  rfl

theorem slice_split {a b c : Nat} (first : a ≤ b) (second : b ≤ c) (ha : text.isBoundary a)
    (hb : text.isBoundary b) (hc : text.isBoundary c) :
    text.slice ⟨a, c⟩ = text.slice ⟨a, b⟩ ++ text.slice ⟨b, c⟩ := by
  obtain ⟨front, rest, split, rfl⟩ := isBoundary_iff.1 ha
  have after : ∀ {m n : Nat} {early late : List Char}, text.chars = early ++ late →
      byteLength early = m → m ≤ n → text.isBoundary n →
      ∃ middle back, late = middle ++ back ∧ n = m + byteLength middle := by
    intro m n early late parts length before bound
    have passed : dropBytes? m text.chars = some late := by
      rw [parts, ← length, dropBytes?_byteLength]
    obtain ⟨back, found⟩ := Option.isSome_iff_exists.1 bound
    have left := dropBytes?_add (n - m) passed
    rw [Nat.add_sub_cancel' before, found] at left
    obtain ⟨middle, rfl, size⟩ := append_of_dropBytes? left.symm
    exact ⟨middle, back, rfl, by omega⟩
  obtain ⟨middle, back, rfl, rfl⟩ := after split rfl first hb
  have cut : text.chars = (front ++ middle) ++ back := by rw [split, List.append_assoc]
  obtain ⟨last, back, rfl, rfl⟩ := after cut (byteLength_append front middle) second hc
  have joined : text.chars = front ++ ((middle ++ last) ++ back) := by
    rw [split, List.append_assoc]
  have whole := slice_eq joined
  have late := slice_eq cut
  rw [byteLength_append] at whole late
  rw [slice_eq split, late, Nat.add_assoc, whole]

end SourceText

namespace Syntax

def Label.unplaced (l : Label) : Label := { l with span := ⟨0, 0⟩ }

namespace Node
open Text

theorem child_induct {P : Node → Prop} (step : ∀ n, (∀ c ∈ n.children, P c) → P n) : ∀ n, P n
  | mk label children => step (mk label children) fun c (_ : c ∈ children) => child_induct step c

section Shapes

mutual

def unplaced : Node → Node
  | mk label children => mk label.unplaced (unplacedAll children)

def unplacedAll : List Node → List Node
  | [] => []
  | n :: rest => unplaced n :: unplacedAll rest

end

mutual

def leaves : Node → List Node
  | mk label children =>
    if children.isEmpty then [mk label children] else leavesOf children

def leavesOf : List Node → List Node
  | [] => []
  | n :: rest => leaves n ++ leavesOf rest

end

mutual

def nodes : Node → List Node
  | mk label children => mk label children :: nodesOf children

def nodesOf : List Node → List Node
  | [] => []
  | n :: rest => nodes n ++ nodesOf rest

end

theorem unplacedAll_eq (ns : List Node) : unplacedAll ns = ns.map unplaced := by
  induction ns with
  | nil => rfl
  | cons n ns ih => rw [unplacedAll, ih, List.map_cons]

theorem leavesOf_eq (ns : List Node) : leavesOf ns = ns.flatMap leaves := by
  induction ns with
  | nil => rfl
  | cons n ns ih => rw [leavesOf, ih, List.flatMap_cons]

theorem nodesOf_eq (ns : List Node) : nodesOf ns = ns.flatMap nodes := by
  induction ns with
  | nil => rfl
  | cons n ns ih => rw [nodesOf, ih, List.flatMap_cons]

theorem label_unplaced (n : Node) : n.unplaced.label = n.label.unplaced := by
  cases n
  rfl

theorem children_unplaced (n : Node) : n.unplaced.children = n.children.map unplaced := by
  cases n
  exact unplacedAll_eq _

theorem leaves_eq (n : Node) :
    n.leaves = if n.children.isEmpty then [n] else n.children.flatMap leaves := by
  cases n
  rw [leaves, leavesOf_eq]
  rfl

theorem nodes_eq (n : Node) : n.nodes = n :: n.children.flatMap nodes := by
  cases n
  rw [nodes, nodesOf_eq]
  rfl

theorem nodes_of_child {n c m : Node} (h : c ∈ n.children) (below : m ∈ c.nodes) : m ∈ n.nodes := by
  rw [nodes_eq]
  exact List.mem_cons_of_mem n (List.mem_flatMap.2 ⟨c, h, below⟩)

theorem self_mem_nodes (n : Node) : n ∈ n.nodes := by
  rw [nodes_eq]
  exact List.mem_cons_self

theorem length_leaves_unplaced (n : Node) : n.unplaced.leaves.length = n.leaves.length := by
  induction n using child_induct with
  | step n ih =>
    rw [leaves_eq, leaves_eq n, children_unplaced, List.isEmpty_map]
    split
    · rfl
    · rw [List.flatMap_map, List.length_flatMap, List.length_flatMap]
      congr 1
      exact List.map_congr_left ih

theorem foldr_adopt_rows (n : Node) : ∀ (depth : Nat) (forest : List (Nat × Node)),
    (∀ t ∈ forest, t.1 ≤ depth) → (n.rows depth).foldr adopt forest = (depth, n) :: forest := by
  induction n using child_induct with
  | step n ih =>
    intro depth forest above
    obtain ⟨label, children⟩ := n
    have inner : ∀ cs : List Node, (∀ c ∈ cs, c ∈ children) →
        (rowsOf (depth + 1) cs).foldr adopt forest = cs.map (depth + 1, ·) ++ forest := by
      intro cs
      induction cs with
      | nil =>
        intro _
        rfl
      | cons c cs rest =>
        intro member
        have deeper : ∀ t ∈ cs.map (depth + 1, ·) ++ forest, t.1 ≤ depth + 1 := by
          intro t found
          rcases List.mem_append.1 found with listed | late
          · obtain ⟨c, _, rfl⟩ := List.mem_map.1 listed
            exact Nat.le_refl _
          · have := above t late
            omega
        rw [rowsOf, List.foldr_append, rest fun d later => member d (List.mem_cons_of_mem c later),
          ih c (member c List.mem_cons_self) (depth + 1) _ deeper]
        rfl
    rw [rows, List.foldr_cons, inner children fun _ member => member]
    -- the children are deeper than the row, and nothing after them is
    have all : ∀ t ∈ children.map (depth + 1, ·), decide (depth < t.1) := by
      intro t member
      obtain ⟨c, _, rfl⟩ := List.mem_map.1 member
      simp
    unfold adopt
    dsimp only
    rw [List.takeWhile_append_of_pos all, List.dropWhile_append_of_pos all]
    cases forest with
    | nil => simp [Function.comp_def]
    | cons t forest =>
      have stop : ¬ depth < t.1 := Nat.not_lt.2 (above t List.mem_cons_self)
      simp [stop, Function.comp_def]

theorem ofRows?_rows (n : Node) (depth : Nat) : ofRows? (n.rows depth) = some n := by
  unfold ofRows?
  rw [foldr_adopt_rows n depth [] (by simp)]

theorem rows_unplaced (n : Node) : ∀ depth : Nat,
    n.unplaced.rows depth = (n.rows depth).map fun r => (r.1, r.2.unplaced) := by
  induction n using child_induct with
  | step n ih =>
    intro depth
    obtain ⟨label, children⟩ := n
    have inner : ∀ cs : List Node, (∀ c ∈ cs, c ∈ children) →
        rowsOf (depth + 1) (unplacedAll cs) =
          (rowsOf (depth + 1) cs).map fun r => (r.1, r.2.unplaced) := by
      intro cs
      induction cs with
      | nil =>
        intro _
        rfl
      | cons c cs rest =>
        intro member
        rw [unplacedAll, rowsOf, rowsOf, ih c (member c List.mem_cons_self), List.map_append,
          rest fun d later => member d (List.mem_cons_of_mem c later)]
    rw [unplaced, rows, rows, List.map_cons, inner children fun _ member => member]

/-- Trees whose rows are the same apart from spans are the same apart from spans. -/
theorem unplaced_eq_of_rows {n m : Node}
    (h : (n.rows 0).map (fun r => (r.1, r.2.unplaced)) =
      (m.rows 0).map fun r => (r.1, r.2.unplaced)) : n.unplaced = m.unplaced := by
  rw [← rows_unplaced, ← rows_unplaced] at h
  have same := congrArg ofRows? h
  rw [ofRows?_rows, ofRows?_rows] at same
  exact Option.some.inj same

end Shapes

section Weaving
variable {source : SourceText}

def Placed (source : SourceText) (n : Node) : Prop :=
  n.span.start ≤ n.span.stop ∧ source.isBoundary n.span.start ∧ source.isBoundary n.span.stop

instance (source : SourceText) (n : Node) : Decidable (n.Placed source) :=
  inferInstanceAs (Decidable (_ ∧ _ ∧ _))

def gap (source : SourceText) (a b : Node) : List Char := source.slice ⟨a.span.stop, b.span.start⟩

/-- One node follows another with nothing but blanks between them. -/
def Follows (source : SourceText) (a b : Node) : Prop :=
  a.span.stop ≤ b.span.start ∧ ∀ c ∈ gap source a b, isBlank c

instance (source : SourceText) : DecidableRel (Follows source) := fun a b =>
  decidable_of_iff (a.span.stop ≤ b.span.start ∧ (gap source a b).all isBlank)
    (and_congr_right' List.all_eq_true)

def Fits (n : Node) : Prop :=
  n.leaves.head?.map (·.span.start) = some n.span.start ∧
    n.leaves.getLast?.map (·.span.stop) = some n.span.stop

instance (n : Node) : Decidable n.Fits := inferInstanceAs (Decidable (_ ∧ _))

def weave (source : SourceText) : List Node → List Char
  | [] => []
  | [a] => a.text source
  | a :: b :: rest => a.text source ++ (gap source a b ++ weave source (b :: rest))

theorem slice_weave {a z : Node} {nodes : List Node} (first : nodes.head? = some a)
    (last : nodes.getLast? = some z) (placed : ∀ n ∈ nodes, Placed source n)
    (chain : nodes.IsChain (Follows source)) :
    a.span.start ≤ z.span.stop ∧
      source.slice ⟨a.span.start, z.span.stop⟩ = weave source nodes := by
  induction nodes generalizing a with
  | nil => cases first
  | cons b rest ih =>
    obtain rfl := Option.some.inj first
    obtain ⟨width, starts, stops⟩ := placed b List.mem_cons_self
    cases rest with
    | nil =>
      obtain rfl := Option.some.inj last
      exact ⟨width, rfl⟩
    | cons c rest =>
      rw [List.isChain_cons_cons] at chain
      obtain ⟨⟨ordered, _⟩, later⟩ := chain
      have others : ∀ n ∈ c :: rest, Placed source n := by
        intro n member
        exact placed n (List.mem_cons_of_mem b member)
      have final : (c :: rest).getLast? = some z := by
        rwa [List.getLast?_cons_cons] at last
      obtain ⟨reach, woven⟩ := ih rfl final others later
      have entry := (others c List.mem_cons_self).2.1
      have close := (placed z (List.mem_of_getLast? last)).2.2
      refine ⟨by omega, ?_⟩
      rw [SourceText.slice_split width (by omega) starts stops close,
        SourceText.slice_split ordered reach stops entry close, woven]
      rfl

theorem text_eq_weave {n : Node} (fits : n.Fits) (placed : ∀ a ∈ n.leaves, Placed source a)
    (chain : n.leaves.IsChain (Follows source)) : n.text source = weave source n.leaves := by
  obtain ⟨start, stop⟩ := fits
  obtain ⟨a, first, starts⟩ := Option.map_eq_some_iff.1 start
  obtain ⟨z, last, stops⟩ := Option.map_eq_some_iff.1 stop
  have woven := (slice_weave first last placed chain).2
  rw [starts, stops] at woven
  exact woven

end Weaving

section Pairs
variable {s s' : SourceText} {pairs : List (Node × Node)}

/-- The nodes of each pair say the same, and between the pairs there are blanks only, in both texts or
in neither. -/
structure Paired (s s' : SourceText) (pairs : List (Node × Node)) : Prop where
  placed : ∀ p ∈ pairs, Placed s p.1 ∧ Placed s' p.2
  texts : ∀ p ∈ pairs, p.1.text s = p.2.text s'
  gaps : pairs.IsChain fun p q =>
    Follows s p.1 q.1 ∧ Follows s' p.2 q.2 ∧ (gap s p.1 q.1 = [] ↔ gap s' p.2 q.2 = [])

theorem Paired.of_append {first second : List (Node × Node)} (h : Paired s s' (first ++ second)) :
    Paired s s' first ∧ Paired s s' second := by
  obtain ⟨early, late, _⟩ := List.isChain_append.1 h.gaps
  constructor
  · refine ⟨?_, ?_, early⟩
    · intro p member
      exact h.placed p (List.mem_append_left second member)
    · intro p member
      exact h.texts p (List.mem_append_left second member)
  · refine ⟨?_, ?_, late⟩
    · intro p member
      exact h.placed p (List.mem_append_right first member)
    · intro p member
      exact h.texts p (List.mem_append_right first member)

theorem Paired.tail {p : Node × Node} (h : Paired s s' (p :: pairs)) : Paired s s' pairs := by
  rw [← List.singleton_append] at h
  exact h.of_append.2

theorem Paired.respaced (h : Paired s s' pairs) :
    Respaced (weave s (pairs.map (·.1))) (weave s' (pairs.map (·.2))) := by
  induction pairs with
  | nil => exact .nil
  | cons p rest ih =>
    have same := h.texts p List.mem_cons_self
    cases rest with
    | nil =>
      change Respaced (p.1.text s) (p.2.text s')
      rw [same]
      exact .refl _
    | cons q rest =>
      obtain ⟨⟨_, first⟩, ⟨_, second⟩, both⟩ := (List.isChain_cons_cons.1 h.gaps).1
      change Respaced (p.1.text s ++ (gap s p.1 q.1 ++ _)) (p.2.text s' ++ (gap s' p.2 q.2 ++ _))
      rw [same]
      apply (Respaced.refl _).append
      by_cases none : gap s p.1 q.1 = []
      · rw [none, both.1 none]
        exact ih h.tail
      · exact .gap none (fun other => none (both.2 other)) first second (ih h.tail)

def Tight (source : SourceText) (nodes : List Node) : Prop :=
  nodes.IsChain fun a b => gap source a b = []

instance (source : SourceText) (nodes : List Node) : Decidable (Tight source nodes) :=
  inferInstanceAs (Decidable (nodes.IsChain _))

theorem Paired.weave_eq (h : Paired s s' pairs) (tight : Tight s (pairs.map (·.1))) :
    weave s (pairs.map (·.1)) = weave s' (pairs.map (·.2)) := by
  induction pairs with
  | nil => rfl
  | cons p rest ih =>
    have same := h.texts p List.mem_cons_self
    cases rest with
    | nil => exact same
    | cons q rest =>
      obtain ⟨none, later⟩ := List.isChain_cons_cons.1 tight
      have both := (List.isChain_cons_cons.1 h.gaps).1.2.2
      change p.1.text s ++ (gap s p.1 q.1 ++ _) = p.2.text s' ++ (gap s' p.2 q.2 ++ _)
      rw [same, none, both.1 none]
      have rest := ih h.tail later
      rw [List.map_cons, List.map_cons] at rest
      rw [rest]

def Dotted (source : SourceText) : List Node → Prop
  | [] => False
  | [a] => '.' ∉ a.text source
  | a :: b :: rest => '.' ∉ a.text source ∧ b.text source = ['.'] ∧ Dotted source rest

instance decidableDotted (source : SourceText) : ∀ nodes, Decidable (Dotted source nodes)
  | [] => .isFalse id
  | [a] => inferInstanceAs (Decidable ('.' ∉ a.text source))
  | _ :: _ :: rest =>
    have := decidableDotted source rest
    inferInstanceAs (Decidable (_ ∧ _ ∧ _))

theorem Paired.segments_eq : ∀ {pairs : List (Node × Node)}, Paired s s' pairs →
    Dotted s (pairs.map (·.1)) →
      (pieces '.' (weave s (pairs.map (·.1)))).map trim =
        (pieces '.' (weave s' (pairs.map (·.2)))).map trim
  | [], _, _ => rfl
  | [p], h, _ => by
    change (pieces '.' (p.1.text s)).map trim = (pieces '.' (p.2.text s')).map trim
    rw [h.texts p List.mem_cons_self]
  | [p, q], _, dotted => absurd dotted.2.2 id
  | p :: q :: r :: rest, h, dotted => by
    obtain ⟨whole, dot, others⟩ := dotted
    obtain ⟨⟨⟨_, first⟩, ⟨_, first'⟩, _⟩, chain⟩ := List.isChain_cons_cons.1 h.gaps
    obtain ⟨⟨_, second⟩, ⟨_, second'⟩, _⟩ := (List.isChain_cons_cons.1 chain).1
    have name := h.texts p List.mem_cons_self
    have stop := h.texts q (List.mem_cons_of_mem p List.mem_cons_self)
    have later := segments_eq h.tail.tail others
    change (pieces '.' (p.1.text s ++ (gap s p.1 q.1 ++ (q.1.text s ++ (gap s q.1 r.1 ++ _))))).map
      trim = (pieces '.' (p.2.text s' ++ (gap s' p.2 q.2 ++ (q.2.text s' ++ (gap s' q.2 r.2 ++
        _))))).map trim
    rw [← name, ← stop, dot, ← List.append_assoc, ← List.append_assoc (p.1.text s),
      List.singleton_append, List.singleton_append, trim_pieces_dot whole first second,
      trim_pieces_dot whole first' second']
    exact congrArg (trim (p.1.text s) :: ·) later

end Pairs

section Matching
variable {s s' : SourceText} {n n' : Node}

/-- The trees are two layouts of one text. -/
structure Matched (s s' : SourceText) (n n' : Node) : Prop where
  shape : n.unplaced = n'.unplaced
  paired : Paired s s' (n.leaves.zip n'.leaves)
  fits : ∀ m ∈ n.nodes, m.Fits
  fits' : ∀ m ∈ n'.nodes, m.Fits

theorem length_leaves_eq (h : n.unplaced = n'.unplaced) : n.leaves.length = n'.leaves.length := by
  rw [← length_leaves_unplaced, h, length_leaves_unplaced]

namespace Matched

theorem texts_eq_weave (h : Matched s s' n n') :
    n.text s = weave s ((n.leaves.zip n'.leaves).map (·.1)) ∧
      n'.text s' = weave s' ((n.leaves.zip n'.leaves).map (·.2)) := by
  have size := length_leaves_eq h.shape
  have first : (n.leaves.zip n'.leaves).map (·.1) = n.leaves := List.map_fst_zip (by omega)
  have second : (n.leaves.zip n'.leaves).map (·.2) = n'.leaves := List.map_snd_zip (by omega)
  constructor
  · rw [first]
    apply text_eq_weave (h.fits n n.self_mem_nodes)
    · intro a member
      rw [← first] at member
      obtain ⟨p, found, rfl⟩ := List.mem_map.1 member
      exact (h.paired.placed p found).1
    · rw [← first, List.isChain_map]
      exact h.paired.gaps.imp fun p q follows => follows.1
  · rw [second]
    apply text_eq_weave (h.fits' n' n'.self_mem_nodes)
    · intro a member
      rw [← second] at member
      obtain ⟨p, found, rfl⟩ := List.mem_map.1 member
      exact (h.paired.placed p found).2
    · rw [← second, List.isChain_map]
      exact h.paired.gaps.imp fun p q follows => follows.2.1

theorem text_respaced (h : Matched s s' n n') : Respaced (n.text s) (n'.text s') := by
  rw [h.texts_eq_weave.1, h.texts_eq_weave.2]
  exact h.paired.respaced

theorem phrase_eq (h : Matched s s' n n') : n.phrase s = n'.phrase s' :=
  h.text_respaced.collapse_eq

theorem leaves_eq_map (h : Matched s s' n n') : (n.leaves.zip n'.leaves).map (·.1) = n.leaves :=
  List.map_fst_zip (Nat.le_of_eq (length_leaves_eq h.shape))

theorem text_eq (h : Matched s s' n n') (tight : Tight s n.leaves) : n.text s = n'.text s' := by
  rw [h.texts_eq_weave.1, h.texts_eq_weave.2]
  apply h.paired.weave_eq
  rw [h.leaves_eq_map]
  exact tight

theorem segments_eq (h : Matched s s' n n') (dotted : Dotted s n.leaves) :
    n.segments s = n'.segments s' := by
  unfold segments
  rw [h.texts_eq_weave.1, h.texts_eq_weave.2]
  apply h.paired.segments_eq
  rw [h.leaves_eq_map]
  exact dotted

theorem forall₂_of_leaves {ns ns' : List Node} (shapes : ns.map unplaced = ns'.map unplaced)
    (paired : Paired s s' ((ns.flatMap leaves).zip (ns'.flatMap leaves)))
    (fits : ∀ c ∈ ns, ∀ m ∈ c.nodes, m.Fits) (fits' : ∀ c ∈ ns', ∀ m ∈ c.nodes, m.Fits) :
    List.Forall₂ (Matched s s') ns ns' := by
  induction ns generalizing ns' with
  | nil =>
    rw [List.map_eq_nil_iff.1 shapes.symm]
    exact .nil
  | cons c ns ih =>
    cases ns' with
    | nil => cases shapes
    | cons c' ns' =>
      obtain ⟨shape, others⟩ := List.cons.inj shapes
      rw [List.flatMap_cons, List.flatMap_cons, List.zip_append (length_leaves_eq shape)] at paired
      obtain ⟨first, rest⟩ := paired.of_append
      refine .cons ⟨shape, first, fits c List.mem_cons_self, fits' c' List.mem_cons_self⟩ ?_
      apply ih others rest
      · intro d later
        exact fits d (List.mem_cons_of_mem c later)
      · intro d later
        exact fits' d (List.mem_cons_of_mem c' later)

theorem children (h : Matched s s' n n') : List.Forall₂ (Matched s s') n.children n'.children := by
  have shapes : n.children.map unplaced = n'.children.map unplaced := by
    rw [← children_unplaced, h.shape, children_unplaced]
  have empty : n.children.isEmpty = n'.children.isEmpty := by
    rw [← List.isEmpty_map, shapes, List.isEmpty_map]
  apply forall₂_of_leaves shapes
  · by_cases leaf : n.children.isEmpty
    · rw [List.isEmpty_iff.1 leaf]
      exact ⟨by simp, by simp, by simp⟩
    · have paired := h.paired
      rw [leaves_eq n, leaves_eq n', ← empty, if_neg leaf, if_neg leaf] at paired
      exact paired
  · intro c child m below
    exact h.fits m (nodes_of_child child below)
  · intro c child m below
    exact h.fits' m (nodes_of_child child below)

theorem label_eq {α : Type} (h : Matched s s' n n') (part : Label → α)
    (free : ∀ l, part l.unplaced = part l) : part n.label = part n'.label := by
  rw [← free, ← label_unplaced, h.shape, label_unplaced, free]

theorem kind_eq (h : Matched s s' n n') : n.kind = n'.kind := h.label_eq Label.kind fun _ => rfl

theorem role_eq (h : Matched s s' n n') : n.label.role = n'.label.role :=
  h.label_eq Label.role fun _ => rfl

theorem isNamed_eq (h : Matched s s' n n') : n.isNamed = n'.isNamed :=
  h.label_eq Label.isNamed fun _ => rfl

theorem isMissing_eq (h : Matched s s' n n') : n.isMissing = n'.isMissing :=
  h.label_eq Label.isMissing fun _ => rfl

theorem isUsableName_eq (h : Matched s s' n n') : n.isUsableName = n'.isUsableName :=
  h.label_eq (fun l => !l.isMissing && !l.isError) fun _ => rfl

end Matched
end Matching
end Node
end Syntax
end CodeAtlas
