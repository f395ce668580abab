import CodeAtlas.Graph
import CodeAtlas.Proofs.JsonRecords

/-!
Building a graph from paths, some of which have no URI. Each path is answered by a vertex or by the
reason for which it was turned away; the graph has the answered vertices in their order, and its
text gives them back.
-/
namespace CodeAtlas
open Json (Value)

/-- A graph under construction, with the answers to all paths that were offered. -/
structure Build where
  graph : Graph := {}
  answers : List (Except InvalidPath Vertex) := []

namespace Build

def offer (b : Build) (p : Path) : Build :=
  match Uri.ofPath p with
  | .ok uri => ⟨b.graph.addDocument uri, b.answers ++ [.ok (b.graph.next uri)]⟩
  | .error e => ⟨b.graph, b.answers ++ [.error e]⟩

def offerAll (b : Build) (paths : List Path) : Build := paths.foldl offer b

theorem offer_ok {p : Path} {uri : Uri} (h : Uri.ofPath p = .ok uri) (b : Build) :
    b.offer p = ⟨b.graph.addDocument uri, b.answers ++ [.ok (b.graph.next uri)]⟩ := by
  rw [offer, h]

theorem offer_error {p : Path} {e : InvalidPath} (h : Uri.ofPath p = .error e) (b : Build) :
    b.offer p = ⟨b.graph, b.answers ++ [.error e]⟩ := by
  rw [offer, h]

theorem answers_offer (b : Build) (p : Path) :
    (b.offer p).answers = b.answers ++ [(Uri.ofPath p).map b.graph.next] := by
  cases named : Uri.ofPath p with
  | ok uri =>
    rw [offer_ok named]
    rfl
  | error e =>
    rw [offer_error named]
    rfl

theorem vertices_offer (b : Build) (p : Path) :
    (b.offer p).graph.vertices =
      b.graph.vertices ++ ((Uri.ofPath p).map b.graph.next).toOption.toList := by
  cases named : Uri.ofPath p with
  | ok uri =>
    rw [offer_ok named]
    rfl
  | error e =>
    rw [offer_error named]
    exact (List.append_nil _).symm

theorem offerAll_append (b : Build) (early late : List Path) :
    b.offerAll (early ++ late) = (b.offerAll early).offerAll late :=
  List.foldl_append

def accepted (paths : List Path) : List Uri := paths.filterMap fun p => (Uri.ofPath p).toOption

theorem accepted_concat (paths : List Path) (p : Path) :
    accepted (paths ++ [p]) = accepted paths ++ (Uri.ofPath p).toOption.toList := by
  cases named : Uri.ofPath p <;> simp [accepted, named, Except.toOption]

/-- What a build has after `paths`: an answer to each, and the vertices of those accepted, numbered
from one in their order, which are the vertices in the answers. -/
structure Kept (paths : List Path) (b : Build) : Prop where
  answers : b.answers.map (Except.map Vertex.uri) = paths.map Uri.ofPath
  vertices : b.graph.vertices = (accepted paths).mapIdx fun k uri => ⟨k + 1, uri⟩
  answered : b.answers.filterMap Except.toOption = b.graph.vertices

theorem Kept.offer {paths : List Path} {b : Build} (kept : Kept paths b) (p : Path) :
    Kept (paths ++ [p]) (b.offer p) := by
  have size : b.graph.size = (accepted paths).length := by
    rw [Graph.size, kept.vertices, List.length_mapIdx]
  refine ⟨?_, ?_, ?_⟩
  · have last : ((Uri.ofPath p).map b.graph.next).map Vertex.uri = Uri.ofPath p := by
      cases Uri.ofPath p <;> rfl
    rw [answers_offer, List.map_append, List.map_append, kept.answers, List.map_singleton,
      List.map_singleton, last]
  · rw [vertices_offer, accepted_concat, kept.vertices]
    cases Uri.ofPath p with
    | ok uri =>
      have added : ((Except.ok uri : Except InvalidPath Uri).map b.graph.next).toOption.toList =
          [⟨(accepted paths).length + 1, uri⟩] := by rw [← size]; rfl
      rw [added]
      exact List.mapIdx_concat.symm
    | error e => simp [Except.toOption, Except.map]
  · rw [answers_offer, List.filterMap_append, kept.answered, vertices_offer]
    cases Uri.ofPath p <;> rfl

theorem Kept.offerAll {early : List Path} {b : Build} (kept : Kept early b) (late : List Path) :
    Kept (early ++ late) (b.offerAll late) := by
  induction late generalizing early b with
  | nil =>
    rw [List.append_nil]
    exact kept
  | cons p late ih =>
    rw [List.append_cons]
    exact ih (kept.offer p)

theorem kept_offerAll (paths : List Path) : Kept paths (({} : Build).offerAll paths) := by
  have start : Kept [] {} := ⟨rfl, rfl, rfl⟩
  exact start.offerAll paths

/-- A later build has all that an earlier one has, at the same places. -/
def Extends (b c : Build) : Prop :=
  b.graph.vertices <+: c.graph.vertices ∧ b.answers <+: c.answers

theorem extends_offer (b : Build) (p : Path) : b.Extends (b.offer p) := by
  rw [Extends, vertices_offer, answers_offer]
  exact ⟨List.prefix_append _ _, List.prefix_append _ _⟩

theorem extends_offerAll (b : Build) (paths : List Path) : b.Extends (b.offerAll paths) := by
  induction paths generalizing b with
  | nil => exact ⟨List.prefix_rfl, List.prefix_rfl⟩
  | cons p paths ih =>
    obtain ⟨vertices, answers⟩ := extends_offer b p
    obtain ⟨laterVertices, laterAnswers⟩ := ih (b.offer p)
    exact ⟨vertices.trans laterVertices, answers.trans laterAnswers⟩

def after (earlier : List (Except InvalidPath Vertex)) (b : Build) : Build :=
  ⟨b.graph, earlier ++ b.answers⟩

theorem offer_after (earlier : List (Except InvalidPath Vertex)) (b : Build) (p : Path) :
    (b.after earlier).offer p = (b.offer p).after earlier := by
  cases named : Uri.ofPath p with
  | ok uri => simp only [offer_ok named, after, List.append_assoc]
  | error e => simp only [offer_error named, after, List.append_assoc]

theorem offerAll_after (earlier : List (Except InvalidPath Vertex)) (b : Build)
    (paths : List Path) : (b.after earlier).offerAll paths = (b.offerAll paths).after earlier := by
  induction paths generalizing b with
  | nil => rfl
  | cons p paths ih =>
    rw [offerAll, List.foldl_cons, offer_after]
    exact ih (b.offer p)

/-- A path that is turned away gets its answer, and all else is as if it had not been offered. -/
theorem offerAll_error {p : Path} {e : InvalidPath} (h : Uri.ofPath p = .error e) (b : Build)
    (early late : List Path) :
    ∃ g later,
      b.offerAll (early ++ late) = ⟨g, (b.offerAll early).answers ++ later⟩ ∧
      b.offerAll (early ++ p :: late) = ⟨g, (b.offerAll early).answers ++ .error e :: later⟩ := by
  rw [offerAll_append, offerAll_append]
  generalize b.offerAll early = c
  have same : c = after c.answers ⟨c.graph, []⟩ := by rw [after, List.append_nil]
  have refused : c.offer p = after (c.answers ++ [.error e]) ⟨c.graph, []⟩ := by
    rw [offer_error h, after, List.append_nil]
  refine ⟨(offerAll ⟨c.graph, []⟩ late).graph, (offerAll ⟨c.graph, []⟩ late).answers, ?_, ?_⟩
  · calc
      c.offerAll late = (after c.answers ⟨c.graph, []⟩).offerAll late := by rw [← same]
      _ = _ := offerAll_after _ _ _
  · calc
      c.offerAll (p :: late) = (c.offer p).offerAll late := rfl
      _ = (offerAll ⟨c.graph, []⟩ late).after (c.answers ++ [.error e]) := by
        rw [refused, offerAll_after]
      _ = _ := by rw [after, List.append_assoc, List.singleton_append]

end Build

namespace Json.Value

def natural? : Value → Option Nat
  | .num w => if w.all Number.isDigit then some (Number.ofDigits w) else none
  | _ => none

theorem natural?_nat (n : Nat) : (nat n).natural? = some n := by
  rw [nat, natural?, if_pos (Number.all_isDigit_write n), Number.ofDigits_write]

end Json.Value

namespace Vertex

def members (v : Vertex) : List (String × Value) :=
  [("id", .nat v.id), ("type", .text "vertex"), ("label", .text "project"),
    ("uri", .text v.uri.text), ("languageId", .text "csharp")]

theorem plainKeys : Value.PlainKeys ["id", "type", "label", "uri", "languageId"] := by decide

theorem written_toJson (v : Vertex) : v.toJson.Written := by
  refine Value.written_record ?_ ?_
  · exact plainKeys
  · simp [Value.written_nat, Value.written_text]

theorem members?_toJson (v : Vertex) : v.toJson.members? = some v.members := by
  rw [toJson, Value.members?_record]
  · rfl
  · exact plainKeys

end Vertex

namespace Graph

def document? (v : Value) : Option (Nat × Uri) := do
  match ← v.fields? ["id", "uri"] 2 with
  | [some id, some uri] => pure (← id.natural?, ⟨← uri.text?⟩)
  | _ => none

/-- The numbers and URIs of all vertices, from the text of a graph. -/
def documents? (s : String) : Option (List (Nat × Uri)) := do
  match ← Json.read? s.toList with
  | .arr items => items.mapM document?
  | _ => none

theorem document?_toJson (v : Vertex) : document? v.toJson = some (v.id, v.uri) := by
  have fields : v.toJson.fields? ["id", "uri"] 2 =
      some [some (.nat v.id), some (.text v.uri.text)] := by
    rw [Vertex.toJson, Value.fields?_record]
    · rfl
    · exact Vertex.plainKeys
  simp [document?, fields, Value.natural?_nat]

theorem written_toJson (g : Graph) : g.toJson.Written := by
  refine .arr ?_
  intro v member
  obtain ⟨vertex, _, rfl⟩ := List.mem_map.1 member
  exact vertex.written_toJson

theorem read?_serialize (g : Graph) :
    Json.read? g.serialize.toList = some (.arr (g.vertices.map Vertex.toJson)) :=
  (written_toJson g).read?_toText

theorem documents?_serialize (g : Graph) :
    documents? g.serialize = some (g.vertices.map fun v => (v.id, v.uri)) := by
  have each : (g.vertices.map Vertex.toJson).mapM document? =
      some (g.vertices.map fun v => (v.id, v.uri)) := by
    have read : document? ∘ Vertex.toJson = fun v => pure (v.id, v.uri) := funext document?_toJson
    rw [List.mapM_map, read]
    exact List.mapM_pure
  rw [documents?, read?_serialize]
  exact each

end Graph

namespace Build

/-- A build turns paths away without a trace in the graph, keeps a numbered vertex for each of the
others as it was answered, whatever comes later, and its text is one JSON array of these vertices
from which their numbers and URIs are read. -/
theorem offered_documents_kept :
    (∀ (b : Build) p e, Uri.ofPath p = .error e → (b.offer p).graph = b.graph ∧
      ∀ early late, ∃ g later,
        b.offerAll (early ++ late) = ⟨g, (b.offerAll early).answers ++ later⟩ ∧
        b.offerAll (early ++ p :: late) =
          ⟨g, (b.offerAll early).answers ++ .error e :: later⟩) ∧
    (∀ paths, Kept paths (({} : Build).offerAll paths)) ∧
    (∀ (b : Build) early late, (b.offerAll early).Extends (b.offerAll (early ++ late))) ∧
    ∀ g : Graph,
      (∃ items, Json.read? g.serialize.toList = some (.arr items) ∧
        items.map Value.members? = g.vertices.map fun v => some v.members) ∧
      Graph.documents? g.serialize = some (g.vertices.map fun v => (v.id, v.uri)) := by
  refine ⟨?_, kept_offerAll, ?_, ?_⟩
  · intro b p e refused
    refine ⟨?_, offerAll_error refused b⟩
    rw [offer_error refused]
  · intro b early late
    rw [offerAll_append]
    exact extends_offerAll _ late
  · intro g
    refine ⟨⟨_, Graph.read?_serialize g, ?_⟩, Graph.documents?_serialize g⟩
    rw [List.map_map]
    exact List.map_congr_left fun v _ => v.members?_toJson

def relativeBetween : List Path := [⟨[0x2F, 0x61]⟩, ⟨[0x61]⟩, ⟨[0x2F, 0x22, 0xC3, 0xA9]⟩]

theorem relativeBetween_kept :
    (({} : Build).offerAll relativeBetween).graph =
        (({} : Build).offerAll (relativeBetween.eraseIdx 1)).graph ∧
      Graph.documents? (({} : Build).offerAll relativeBetween).graph.serialize =
        some [(1, ⟨"file:///a"⟩), (2, ⟨"file:///%22%C3%A9"⟩)] := by
  obtain ⟨refused, kept, _, text⟩ := offered_documents_kept
  have relative : Uri.ofPath ⟨[0x61]⟩ = .error ⟨⟨[0x61]⟩⟩ := rfl
  have listed : accepted relativeBetween = [⟨"file:///a"⟩, ⟨"file:///%22%C3%A9"⟩] := by decide
  obtain ⟨g, later, without, withIt⟩ :=
    (refused {} _ _ relative).2 [⟨[0x2F, 0x61]⟩] [⟨[0x2F, 0x22, 0xC3, 0xA9]⟩]
  refine ⟨?_, ?_⟩
  · exact (congrArg graph withIt).trans (congrArg graph without).symm
  · rw [(text _).2, (kept relativeBetween).vertices, listed]
    rfl

end Build
end CodeAtlas
