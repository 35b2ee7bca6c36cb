import Transclude.Proofs.Growth

namespace Transclude

inductive Node.Compiled : Node → Prop
  | mk {d : Directive} {condition : Option Condition} {file : SourceFile} {children : List Node} :
      (∀ c ∈ condition, ∃ source, Condition.compile source = .ok c) →
      (∀ n ∈ children, n.Compiled) → Compiled (.mk d condition file children)

namespace Build

variable {host : Host} {c c' : Cache}

theorem mapM_ok {α β : Type} {f : α → BuildM β} {as : List α} {bs : List β}
    (h : as.mapM f c = (.ok bs, c')) : ∀ b ∈ bs, ∃ a c₁ c₂, f a c₁ = (.ok b, c₂) := by
  induction as generalizing c bs with
  | nil =>
    rw [List.mapM_nil] at h
    cases h
    simp
  | cons a as ih =>
    rw [List.mapM_cons] at h
    obtain ⟨b, c₁, hb, h⟩ := bind_ok h
    obtain ⟨rest, c₂, hrest, h⟩ := bind_ok h
    cases h
    exact List.forall_mem_cons.2 ⟨⟨a, c, c₁, hb⟩, ih hrest⟩

theorem children_compiled {branch : List Path} {file : SourceFile} {nodes : List Node}
    {c c' : Cache} (h : children host branch file c = (.ok nodes, c')) :
    ∀ n ∈ nodes, n.Compiled := by
  rw [children_eq] at h
  intro n hn
  obtain ⟨d, c₁, c₂, hnode⟩ := mapM_ok h n hn
  obtain ⟨condition, location, included, below, c₃, hprepare, -, hbelow, rfl⟩ := node_made hnode
  obtain ⟨hcompile, hres, hnew⟩ := prepare_ok hprepare
  have hlt := unvisited_lt (host.resolve_mem hres) hnew
  refine .mk (fun cond hcond ↦ ?_) (children_compiled hbelow)
  cases hcond
  cases hd : d.condition with
  | none =>
    rw [hd] at hcompile
    cases hcompile
  | some source =>
    rw [hd] at hcompile
    exact ⟨source, Option.some.inj hcompile⟩
termination_by (unvisited host branch).length

end Build

namespace Expansion

/-- A segment and what follows it are not both text. -/
def Apart : Segment → List Segment → Prop
  | .text _, .text _ :: _ => False
  | _, _ => True

mutual

def NormalSegment : Segment → Prop
  | .text _ => True
  | .guarded c body => (∃ source, Condition.compile source = .ok c) ∧ Normal body

/-- No two texts stand side by side, at any depth, and every condition was read from a text. -/
def Normal : List Segment → Prop
  | [] => True
  | s :: rest => NormalSegment s ∧ Apart s rest ∧ Normal rest

end

variable {e f : Expansion} {c : Condition} {body : Expansion}

theorem apart_cases {s : Segment} {rest : List Segment} (h : Apart s rest) :
    (∃ c body, s = .guarded c body) ∨
      ∃ t, s = .text t ∧ (rest = [] ∨ ∃ c body rest', rest = .guarded c body :: rest') := by
  cases s with
  | guarded c body => exact .inl ⟨c, body, rfl⟩
  | text t =>
    refine .inr ⟨t, rfl, ?_⟩
    cases rest with
    | nil => exact .inl rfl
    | cons next rest =>
      cases next with
      | text u => exact h.elim
      | guarded c body => exact .inr ⟨c, body, rest, rfl⟩

theorem normal_pushText (h : Normal e) (s : String) : Normal (e.pushText s) := by
  induction e, s using pushText.induct with
  | case1 s hs => simpa [pushText, hs] using h
  | case2 s hs => simp [pushText, hs, Normal, NormalSegment, Apart]
  | case3 t s => simp [pushText, Normal, NormalSegment, Apart]
  | case4 segment rest s hlast ih =>
    obtain ⟨hsegment, hapart, hrest⟩ := h
    have happly : pushText (segment :: rest) s = segment :: pushText rest s := by
      rw [pushText]
      exact hlast
    rw [happly]
    refine ⟨hsegment, ?_, ih hrest⟩
    -- A text here is not the last segment, and the one after it is no text and stays first.
    rcases apart_cases hapart with ⟨c, body, rfl⟩ | ⟨t, rfl, rfl | ⟨c, body, rest, rfl⟩⟩
    · exact trivial
    · exact absurd rfl (hlast t rfl)
    · exact trivial

theorem normal_append_guarded (h : Normal e) (hc : ∃ source, Condition.compile source = .ok c)
    (hbody : Normal body) : Normal (e ++ [.guarded c body]) := by
  induction e with
  | nil => exact ⟨⟨hc, hbody⟩, trivial, trivial⟩
  | cons s e ih =>
    obtain ⟨hs, hapart, he⟩ := h
    refine ⟨hs, ?_, ih he⟩
    rcases apart_cases hapart with ⟨c', body', rfl⟩ | ⟨t, rfl, rfl | ⟨c', body', rest, rfl⟩⟩ <;>
      exact trivial

theorem normal_append (h : Normal e) (hf : Normal f) : Normal (e.append f) := by
  unfold append
  induction f generalizing e with
  | nil => exact h
  | cons s f ih =>
    obtain ⟨hs, -, hf⟩ := hf
    refine ih ?_ hf
    cases s with
    | text t => exact normal_pushText h t
    | guarded c body => exact normal_append_guarded h hs.1 hs.2

theorem normal_splice {condition : Option Condition} (h : Normal e)
    (hc : ∀ c ∈ condition, ∃ source, Condition.compile source = .ok c) (hbody : Normal body) :
    Normal (e.splice condition body) := by
  cases condition with
  | none => exact normal_append h hbody
  | some c => exact normal_append_guarded h (hc c rfl) hbody

theorem normal_ofNodes {text : String} {offset : Nat} {nodes : List Node} (h : Normal e)
    (hnodes : ∀ n ∈ nodes, n.Compiled ∧ Normal (ofNode n)) :
    Normal (ofNodes text offset e nodes) := by
  induction nodes generalizing offset e with
  | nil => exact normal_pushText h _
  | cons n nodes ih =>
    obtain ⟨⟨hn, hbody⟩, hnodes⟩ := List.forall_mem_cons.1 hnodes
    rw [ofNodes]
    refine ih (normal_splice (normal_pushText h _) ?_ hbody) hnodes
    cases hn with
    | mk hc _ => exact hc

theorem normal_ofNode {n : Node} (h : n.Compiled) : Normal (ofNode n) := by
  induction h with
  | mk hc hchildren ih =>
    rw [ofNode]
    exact normal_ofNodes trivial fun n hn ↦ ⟨hchildren n hn, ih n hn⟩

theorem normal_ofTree {host : Host} {root : SourceFile} {tree : IncludeTree} {cache : Cache}
    (h : buildTree host root = (.ok tree, cache)) : Normal (ofTree tree) := by
  unfold buildTree IncludeTree.build at h
  split at h
  · next children cache' hchildren =>
    cases h
    exact normal_ofNodes trivial fun n hn ↦
      have hn := Build.children_compiled hchildren n hn
      ⟨hn, normal_ofNode hn⟩
  · cases h

theorem normal_of_expand {host : Host} {root : SourceFile} {cache : Cache}
    (h : expand host root = (.ok e, cache)) : Normal e := by
  obtain ⟨tree, hbuild, rfl⟩ := buildTree_of_expand h
  exact normal_ofTree hbuild

end Expansion

end Transclude
