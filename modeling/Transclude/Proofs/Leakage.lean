import Transclude.Proofs.Condition.Reread
import Transclude.Proofs.Junction
import Transclude.Proofs.Reference

namespace Transclude

open Text Directive

abbrev Unbroken (cs : List Char) : Prop := ∀ c ∈ cs, !isLineEnd c

theorem unbroken_of_all {cs : List Char} (h : cs.all (!isLineEnd ·)) : Unbroken cs :=
  List.all_eq_true.1 h

theorem unbroken_of_isNamePart {cs : List Char} (h : cs.all isNamePart = true) : Unbroken cs := by
  intro c hc
  have hpart := List.all_eq_true.1 h c hc
  have hends : isNamePart '\n' = false ∧ isNamePart '\r' = false := by decide +kernel
  cases he : isLineEnd c with
  | false => rfl
  | true =>
    rw [isLineEnd, Bool.or_eq_true, beq_iff_eq, beq_iff_eq] at he
    rcases he with rfl | rfl
    · rw [hends.1] at hpart
      cases hpart
    · rw [hends.2] at hpart
      cases hpart

theorem unbroken_of_isName {s : String} (h : isName s = true) : Unbroken s.toList := by
  obtain ⟨c, cs, hs, hc, hcs⟩ := isName_iff.1 h
  rw [hs]
  refine unbroken_of_isNamePart ?_
  rw [List.all_cons, isNamePart_of_isNameStart hc, hcs]
  rfl

theorem Token.spelling_subset {offset : Nat} {cs : List Char} {tokens : List Token}
    (h : scanFrom offset cs = .ok tokens) {t : Token} (ht : t ∈ tokens) :
    t.spelling.toList ⊆ cs := by
  fun_induction scanFrom offset cs generalizing tokens with
  | case1 =>
    cases h
    cases ht
  | case2 offset c cs _ ih => exact List.subset_cons_of_subset c (ih h ht)
  | case3 offset c cs _ ih =>
    obtain ⟨found, -, h⟩ := bind_ok h
    obtain ⟨rest, hrest, h⟩ := bind_ok h
    cases h
    rcases List.mem_cons.1 ht with rfl | ht
    · rw [String.toList_ofList]
      exact List.cons_subset_cons c (List.take_subset _ _)
    · have hrest := List.Subset.trans (ih found hrest ht) (List.drop_subset _ _)
      exact List.subset_cons_of_subset c hrest

namespace Expr

theorem unbroken_symbol (op : BinaryOp) : Unbroken op.symbol.toList := by
  refine unbroken_of_all ?_
  cases op <;> decide

theorem unbroken_sign (op : UnaryOp) : Unbroken op.symbol.toList := by
  refine unbroken_of_all ?_
  cases op <;> decide

theorem unbroken_printChars {source : String} {tokens : List Token} {record : List Char}
    (hscan : Token.scan source = .ok tokens) (hsource : Unbroken source.toList)
    (hrecord : Unbroken record) {c : Category} {ts : List Token} {e : Expr} (h : Derives c ts e)
    (hmem : ∀ t ∈ ts, t ∈ tokens) : Unbroken (e.printChars record) := by
  have hspelling {t : Token} (ht : t ∈ tokens) : Unbroken t.spelling.toList := fun c hc ↦
    hsource c (Token.spelling_subset hscan ht hc)
  induction h with
  | @option t word hk =>
    have ht := hmem t List.mem_cons_self
    obtain ⟨-, rfl⟩ := Token.isName_of_mem_scanFrom hscan ht hk
    refine List.forall_mem_append.2 ⟨hrecord, ?_⟩
    exact List.forall_mem_cons.2 ⟨by decide, hspelling ht⟩
  | @word t | @number t | @text t => exact hspelling (hmem t List.mem_cons_self)
  | group _ _ _ ih => exact ih fun t ht ↦ hmem t (by simp [ht])
  | primary _ ih | tightest _ ih | tighter _ ih => exact ih hmem
  | @unary _ _ _ op _ _ _ _ ih =>
    have hoperand := ih fun t ht ↦ hmem t (by simp [ht])
    have hsign := unbroken_sign op
    simp only [Unbroken, printChars, List.forall_mem_append, List.forall_mem_cons] at hsign ⊢
    exact ⟨⟨hsign, by decide, hoperand⟩, by decide, by simp⟩
  | @binary _ _ _ _ _ op _ _ _ _ _ _ ihe ihf =>
    have hleft := ihe fun t ht ↦ hmem t (by simp [ht])
    have hright := ihf fun t ht ↦ hmem t (by simp [ht])
    have hsymbol := unbroken_symbol op
    simp only [Unbroken, printChars, List.forall_mem_append, List.forall_mem_cons] at hsymbol ⊢
    refine ⟨⟨⟨⟨by decide, hleft⟩, hsymbol⟩, ?_⟩, by decide, by simp⟩
    split
    · exact List.forall_mem_cons.2 ⟨by decide, hright⟩
    · exact hright

end Expr

theorem Condition.unbroken_print {source record : String} {c : Condition}
    (h : compile source = .ok c) (hsource : Unbroken source.toList) (hrecord : isName record) :
    Unbroken (c.print record).toList := by
  obtain ⟨e, hparse, hc⟩ := bind_ok h
  obtain rfl : c = ⟨trim source, e⟩ := (Except.ok.inj hc).symm
  obtain ⟨tokens, hscan, -⟩ := bind_ok hparse
  have hprint := Expr.unbroken_printChars hscan hsource (unbroken_of_isName hrecord)
    (Expr.derives_of_parse hscan hparse) fun _ ht ↦ ht
  simpa [Condition.print, Expr.print] using hprint

namespace Directive

theorem splitFirst?_subset {sep cs before after : List Char}
    (h : splitFirst? sep cs = some (before, after)) : after ⊆ cs := by
  induction cs generalizing before with
  | nil =>
    rw [splitFirst?] at h
    split at h
    · cases h
      exact List.Subset.refl _
    · cases h
  | cons c cs ih =>
    rw [splitFirst?] at h
    split at h
    · cases h
      exact List.drop_subset _ _
    · obtain ⟨⟨before', after'⟩, hsplit, hpair⟩ := Option.map_eq_some_iff.1 h
      cases hpair
      exact List.subset_cons_of_subset c (ih hsplit)

theorem unbroken_condition {offset : Nat} {argument ending : List Char}
    (hargument : Unbroken argument) :
    ∀ expression ∈ (ofArgument offset argument ending).condition, Unbroken expression.toList := by
  intro expression hexpression
  unfold ofArgument at hexpression
  cases hsplit : splitFirst? separator argument with
  | none =>
    simp only [hsplit] at hexpression
    cases hexpression
  | some pair =>
    simp only [hsplit] at hexpression
    cases hexpression
    rw [String.toList_ofList]
    exact fun c hc ↦ hargument c (splitFirst?_subset hsplit hc)

theorem exists_argument_of_mem_scan {text : String} {d : Directive} (hd : d ∈ scan text) :
    ∃ offset argument ending, Unbroken argument ∧ d = ofArgument offset argument ending := by
  have hlines {offset : Nat} {ls : List Line} (hls : ∀ l ∈ ls, Unbroken l.content)
      (hd : d ∈ Line.directivesFrom offset ls) :
      ∃ offset argument ending, Unbroken argument ∧ d = ofArgument offset argument ending := by
    induction ls generalizing offset with
    | nil => cases hd
    | cons l ls ih =>
      obtain ⟨hl, hls⟩ := List.forall_mem_cons.1 hls
      rw [Line.directivesFrom] at hd
      cases hargument : l.argument? with
      | none =>
        rw [hargument] at hd
        exact ih hls hd
      | some argument =>
        rw [hargument] at hd
        rcases List.mem_cons.1 hd with rfl | hd
        · rw [Line.content_of_argument? hargument] at hl
          exact ⟨_, _, _, (List.forall_mem_append.1 hl).2, rfl⟩
        · exact ih hls hd
  rw [Line.scan_eq] at hd
  exact hlines (fun l hl ↦ (Line.of_mem_cut hl).1) hd

theorem unbroken_of_mem_scan {text : String} {d : Directive} (hd : d ∈ scan text) :
    ∀ expression ∈ d.condition, Unbroken expression.toList := by
  obtain ⟨offset, argument, ending, hargument, rfl⟩ := exists_argument_of_mem_scan hd
  exact unbroken_condition hargument

end Directive

namespace Expansion

open Line

mutual

def TightSegment : Segment → Prop
  | .text s => Closed s.toList
  | .guarded c body =>
    (∀ record, isName record → Unbroken (c.print record).toList) ∧ Tight body

/-- No text has a directive or breaks off within a marker, and every condition is on one line. -/
def Tight : List Segment → Prop
  | [] => True
  | s :: rest => TightSegment s ∧ Tight rest

end

variable {e f body : Expansion} {options : Json} {record : String}

theorem tight_append (he : Tight e) (hf : Tight f) : Tight (e ++ f) := by
  induction e with
  | nil => exact hf
  | cons s e ih => exact ⟨he.1, ih he.2⟩

theorem tight_pushText (h : Tight e) {s : String} (hs : Closed s.toList) :
    Tight (e.pushText s) := by
  induction e, s using pushText.induct with
  | case1 s hempty => simpa [pushText, hempty] using h
  | case2 s hempty =>
    rw [pushText, if_neg hempty]
    exact ⟨hs, trivial⟩
  | case3 t s =>
    rw [pushText]
    refine ⟨?_, trivial⟩
    rw [TightSegment, String.toList_append]
    exact Closed.append h.1 hs
  | case4 segment rest s hlast ih =>
    rw [pushText]
    · exact ⟨h.1, ih h.2 hs⟩
    · exact hlast

theorem tight_appendExpansion (he : Tight e) (hf : Tight f) : Tight (e.append f) := by
  unfold append
  induction f generalizing e with
  | nil => exact he
  | cons s f ih =>
    obtain ⟨hs, hf⟩ := hf
    refine ih ?_ hf
    cases s with
    | text t => exact tight_pushText he hs
    | guarded c body => exact tight_append he ⟨hs, trivial⟩

theorem tight_splice {condition : Option Condition} (he : Tight e)
    (hc : ∀ c ∈ condition, ∀ record, isName record → Unbroken (c.print record).toList)
    (hbody : Tight body) : Tight (e.splice condition body) := by
  cases condition with
  | none => exact tight_appendExpansion he hbody
  | some c => exact tight_append he ⟨⟨hc c rfl, hbody⟩, trivial⟩

theorem closed_render (options : Json) (e : Expansion) (h : Tight e) :
    Closed (render options e).toList := by
  match e with
  | [] => exact closed_nil
  | .text s :: e =>
    rw [render, String.toList_append]
    exact Closed.append h.1 (closed_render options e h.2)
  | .guarded c body :: e =>
    rw [render, String.toList_append]
    refine Closed.append ?_ (closed_render options e h.2)
    rw [renderSegment]
    split
    · exact closed_render options body h.1.2
    · exact closed_nil
termination_by sizeOf e

theorem closed_templateBody (hrecord : isName record) (e : Expansion) (h : Tight e) :
    Closed (templateBody record e).toList := by
  match e with
  | [] => exact closed_nil
  | .text s :: e =>
    rw [templateBody, String.toList_append]
    exact Closed.append h.1 (closed_templateBody hrecord e h.2)
  | .guarded c body :: e =>
    rw [templateBody, String.toList_append]
    refine Closed.append ?_ (closed_templateBody hrecord e h.2)
    -- The guard is on one line up to its body, and neither end of it looks like a marker.
    have hopen : Closed ("$\x7b" ++ c.print record ++ "?`").toList := by
      have hchars : ("$\x7b" ++ c.print record ++ "?`").toList =
          '$' :: '\x7b' :: ((c.print record).toList ++ ['?', '`']) := by simp
      rw [hchars]
      refine closed_of_head ?_ (by decide)
      simp only [List.forall_mem_cons, List.forall_mem_append]
      exact ⟨by decide, by decide, h.1.1 record hrecord, by decide, by decide, by simp⟩
    have hclose : Closed ['`', ':', '"', '"', '\x7d'] :=
      closed_of_head (unbroken_of_all (by decide)) (by decide)
    rw [templateSegment, String.toList_append, String.toList_append]
    exact (hopen.append (closed_templateBody hrecord body h.1.2)).append hclose
termination_by sizeOf e

theorem templateBody_pushText (e : Expansion) (s : String) :
    templateBody record (e.pushText s) = templateBody record e ++ s := by
  induction e, s using pushText.induct with
  | case1 s hs =>
    obtain rfl : s = "" := by simpa using hs
    rfl
  | case2 s hs => simp [pushText, hs, templateBody, templateSegment]
  | case3 t s => simp [pushText, templateBody, templateSegment]
  | case4 segment rest s h ih =>
    rw [pushText, templateBody, ih, templateBody, String.append_assoc]
    exact h

section Nodes

variable {text : String} {before pending rest : List Char} {done : Expansion} {n : Node}
  {nodes : List Node}

theorem ofNodes_nil (htext : text.toList = before ++ pending) :
    ofNodes text (size before) done [] = done.pushText (String.ofList pending) := by
  have hslice : sliceChars (size before) (size text.toList) text.toList = pending := by
    have h := sliceChars_append before pending []
    rw [htext]
    simpa using h
  rw [ofNodes, slice, hslice]

theorem ofNodes_cons {l : Line} {argument : List Char}
    (htext : text.toList = before ++ (pending ++ (l.chars ++ rest)))
    (ha : l.argument? = some argument)
    (hd : n.directive = ofArgument (size before + size pending) argument l.ending) :
    ofNodes text (size before) done (n :: nodes) =
      ofNodes text (size (before ++ (pending ++ l.chars)))
        ((done.pushText (String.ofList pending)).splice n.condition (ofNode n)) nodes := by
  have hslice : sliceChars (size before) (size before + size pending) text.toList = pending := by
    rw [htext, sliceChars_append]
  have hsize : size before + size pending + size l.chars =
      size (before ++ (pending ++ l.chars)) := by
    simp [Nat.add_assoc]
  rw [ofNodes, hd, ofArgument_start, ofArgument_stop, slice, hslice, ← chars_of_argument? ha, hsize]

/-- What a node contributes can be put between any texts. -/
def TightNode (n : Node) : Prop :=
  Tight (ofNode n) ∧
    ∀ c ∈ n.condition, ∀ record, isName record → Unbroken (c.print record).toList

/-- The rest of a text is read off, line by line, against the nodes of its directives. The text
before the offset is done, and `pending` is copied but not yet added. Only what follows the last
directive can break off within a marker, and only where the text does. -/
theorem ofNodes_eq_pushText (htext : text.toList = before ++ (pending ++ rest))
    (hdirectives : nodes.map Node.directive =
      directivesFrom (size before + size pending) (cut rest))
    (hnodes : ∀ n ∈ nodes, TightNode n) (hdone : Tight done) (hquiet : Quiet pending)
    (hpending : rest ≠ [] → Closed pending) :
    ∃ done' last, ofNodes text (size before) done nodes = pushText done' (String.ofList last) ∧
      Tight done' ∧ Quiet last ∧
      (Closed pending → (∀ l ∈ cut rest, l.isStub = false) → Closed last) := by
  induction rest using lineInduction generalizing nodes done before pending with
  | nil =>
    obtain rfl : nodes = [] := List.map_eq_nil_iff.1 hdirectives
    exact ⟨done, pending, ofNodes_nil (by simpa using htext), hdone, hquiet, fun h _ ↦ h⟩
  | @line content ending rest hcontent hends hne ih =>
    let l : Line := ⟨content, ending⟩
    have hclosed := hpending (by simp [← List.append_assoc, hne])
    have hcut : cut (content ++ (ending ++ rest)) = l :: cut rest :=
      cut_append hcontent hends hne
    have hl : l ∈ cut (content ++ (ending ++ rest)) := by
      rw [hcut]
      exact List.mem_cons_self
    have htext : text.toList = before ++ (pending ++ (l.chars ++ rest)) := by
      simpa [Line.chars, l] using htext
    rw [hcut, directivesFrom] at hdirectives
    rw [hcut]
    cases ha : l.argument? with
    | none =>
      have hdirectives : nodes.map Node.directive =
          directivesFrom (size before + size (pending ++ l.chars)) (cut rest) := by
        simpa [ha, Nat.add_assoc] using hdirectives
      have hpending' (hstub : l.isStub = false) : Closed (pending ++ l.chars) :=
        hclosed.append (closed_chars hl ha hstub)
      -- A line that has another one after it has a terminator.
      have hterminated (hrest : rest ≠ []) : l.isStub = false := by
        cases hends with
        | last => exact absurd rfl hrest
        | newline | both | carriage => rfl
      obtain ⟨done', last, he, hdone', hquiet', hlast⟩ :=
        ih (by simpa using htext) hdirectives hnodes hdone
          (hclosed.append_quiet (quiet_chars hl ha)) fun hrest ↦ hpending' (hterminated hrest)
      refine ⟨done', last, he, hdone', hquiet', fun _ hstubs ↦ ?_⟩
      obtain ⟨hstub, hstubs⟩ := List.forall_mem_cons.1 hstubs
      exact hlast (hpending' hstub) hstubs
    | some argument =>
      simp only [ha] at hdirectives
      cases nodes with
      | nil => cases hdirectives
      | cons n nodes =>
        obtain ⟨hd, hdirectives⟩ := List.cons.inj hdirectives
        obtain ⟨⟨hn, hc⟩, hnodes⟩ := List.forall_mem_cons.1 hnodes
        have hsplice : Tight ((done.pushText (String.ofList pending)).splice n.condition
            (ofNode n)) := by
          refine tight_splice (tight_pushText hdone ?_) hc hn
          rwa [String.toList_ofList]
        have hdirectives : nodes.map Node.directive =
            directivesFrom (size (before ++ (pending ++ l.chars)) + size []) (cut rest) := by
          simpa [Nat.add_assoc] using hdirectives
        obtain ⟨done', last, he, hdone', hquiet', hlast⟩ :=
          ih (by simpa using htext) hdirectives hnodes hsplice quiet_nil fun _ ↦ closed_nil
        refine ⟨done', last, (ofNodes_cons htext ha hd).trans he, hdone', hquiet', ?_⟩
        exact fun _ hstubs ↦ hlast closed_nil (List.forall_mem_cons.1 hstubs).2

theorem ofNodes_text (hdirectives : nodes.map Node.directive = scan text)
    (hnodes : ∀ n ∈ nodes, TightNode n) :
    ∃ done last, ofNodes text 0 [] nodes = pushText done (String.ofList last) ∧ Tight done ∧
      Quiet last ∧ ((∀ l ∈ cut text.toList, l.isStub = false) → Closed last) := by
  rw [scan_eq] at hdirectives
  have htext : text.toList = [] ++ ([] ++ text.toList) := rfl
  have hstart : Tight [] := trivial
  obtain ⟨done, last, he, hdone, hquiet, hlast⟩ :=
    ofNodes_eq_pushText htext hdirectives hnodes hstart quiet_nil fun _ ↦ closed_nil
  exact ⟨done, last, he, hdone, hquiet, hlast closed_nil⟩

end Nodes

end Expansion

def endsInMarker (text : String) : Bool := (Line.cut text.toList).any Line.isStub

namespace Grown

variable {host : Host} {branch : List Path} {context : Path} {ds : List Directive}
  {nodes : List Node}

theorem tightNode (h : Grown host branch context ds nodes) {depth : Nat}
    (hds : ∀ d ∈ ds, ∀ expression ∈ d.condition, Unbroken expression.toList)
    (hfiles : ∀ p ∈ Node.preorderList depth nodes, endsInMarker p.2.file.text = false) :
    ∀ n ∈ nodes, Expansion.TightNode n := by
  induction h generalizing depth with
  | nil => simp
  | @cons _ _ location d _ condition text below rest hcompile _ _ _ hbelow _ ihbelow ihrest =>
    obtain ⟨hd, hds⟩ := List.forall_mem_cons.1 hds
    rw [Node.preorderList, Node.preorder] at hfiles
    obtain ⟨hnode, hrest⟩ := List.forall_mem_append.1 hfiles
    obtain ⟨hfile, hdeep⟩ := List.forall_mem_cons.1 hnode
    refine List.forall_mem_cons.2 ⟨⟨?_, ?_⟩, ihrest hds hrest⟩
    · have hnodes := ihbelow (fun d hd ↦ Directive.unbroken_of_mem_scan hd) hdeep
      obtain ⟨done, last, he, hdone, -, hlast⟩ :=
        Expansion.ofNodes_text hbelow.map_directive hnodes
      have hstubs : ∀ l ∈ Line.cut text.toList, l.isStub = false := by
        simpa [endsInMarker, Node.file, SourceFile.ofText] using hfile
      rw [Expansion.ofNode, SourceFile.ofText, he]
      refine Expansion.tight_pushText hdone ?_
      rw [String.toList_ofList]
      exact hlast hstubs
    · rintro c rfl record hrecord
      cases hexpression : d.condition with
      | none =>
        rw [hexpression] at hcompile
        cases hcompile
      | some expression =>
        rw [hexpression] at hcompile
        exact Condition.unbroken_print (Option.some.inj hcompile) (hd expression hexpression)
          hrecord

end Grown

/-- If no included file breaks off within a marker, the expansion of a root has no directive, either
rendered or as a template body. -/
theorem occursIn_expand (h : MemoryHost) {root : SourceFile} {tree : IncludeTree} {c : Cache}
    (hbuild : buildTree h.toHost root = (.ok tree, c))
    (hfiles : ∀ n ∈ tree.nodes, endsInMarker n.file.text = false) :
    ∃ e, expand h.toHost root = (.ok e, c) ∧ ∀ (options : Json) (record : String),
      isName record →
      occursIn (Expansion.render options e) = false ∧
        occursIn (Expansion.templateBody record e) = false := by
  refine ⟨Expansion.ofTree tree, by rw [expand, hbuild]; rfl, fun options record hrecord ↦ ?_⟩
  obtain ⟨rfl, hgrown⟩ := h.grown_of_buildTree hbuild
  have hleveled : ∀ p ∈ Node.preorderList 0 tree.children, endsInMarker p.2.file.text = false :=
    fun p hp ↦ hfiles p.2 (List.mem_map_of_mem hp)
  have hnodes := hgrown.tightNode (fun d hd ↦ Directive.unbroken_of_mem_scan hd) hleveled
  obtain ⟨done, last, he, hdone, hquiet, -⟩ :=
    Expansion.ofNodes_text hgrown.map_directive hnodes
  rw [Line.occursIn_eq_false_iff, Line.occursIn_eq_false_iff, Expansion.ofTree, he,
    Expansion.render_pushText, Expansion.templateBody_pushText, String.toList_append,
    String.toList_append, String.toList_ofList]
  exact ⟨(Expansion.closed_render options done hdone).append_quiet hquiet,
    (Expansion.closed_templateBody hrecord done hdone).append_quiet hquiet⟩

def joinedHost : MemoryHost :=
  .ofEntries [(⟨"/p/a"⟩, "A\r\n+#include"), (⟨"/p/b"⟩, "B\r#include a if on\r #include "),
    (⟨"/p/c"⟩, "#include\r")] []

def joinedRoot : SourceFile :=
  ⟨⟨"/p/r"⟩, ⟨"/p"⟩, "#include b\nb\r#include c\n\ne\n#include c if !on\n#include "⟩

theorem occursIn_joined :
    ∃ e c, expand joinedHost.toHost joinedRoot = (.ok e, c) ∧
      Expansion.render (.object [("on", .boolean true)]) e =
        "B\rA\r\n+#include #include b\r#include\r\ne\n#include " ∧
      occursIn (Expansion.render (.object [("on", .boolean true)]) e) = false ∧
      occursIn (Expansion.templateBody "o" e) = false := by
  have hcheck : ((buildTree joinedHost.toHost joinedRoot).1.map fun t ↦
      (t.nodes.all fun n ↦ !endsInMarker n.file.text,
        Expansion.render (.object [("on", .boolean true)]) (Expansion.ofTree t))).toOption =
      some (true, "B\rA\r\n+#include #include b\r#include\r\ne\n#include ") := by
    decide +kernel
  cases hbuild : buildTree joinedHost.toHost joinedRoot with
  | mk result c =>
    rw [hbuild] at hcheck
    cases result with
    | error err => cases hcheck
    | ok tree =>
      obtain ⟨hall, hrender⟩ := Prod.mk.inj (Option.some.inj hcheck)
      have hfiles : ∀ n ∈ tree.nodes, endsInMarker n.file.text = false := by
        simpa using hall
      obtain ⟨e, hexpand, hnone⟩ := occursIn_expand joinedHost hbuild hfiles
      obtain rfl : e = Expansion.ofTree tree := by
        rw [expand, hbuild] at hexpand
        cases hexpand
        rfl
      exact ⟨_, c, hexpand, hrender, hnone _ "o" (by decide)⟩

def brokenHost : MemoryHost := .ofEntries [(⟨"/p/a"⟩, "#include ")] []

def brokenRoot : SourceFile := ⟨⟨"/p/root.tpl"⟩, ⟨"/p"⟩, "#include a\nb"⟩

theorem occursIn_broken :
    ∃ e c, expand brokenHost.toHost brokenRoot = (.ok e, c) ∧
      occursIn (Expansion.render (.object []) e) = true ∧
      occursIn (Expansion.templateBody "options" e) = true := by
  have hcheck : ((expand brokenHost.toHost brokenRoot).1.map fun e ↦
      (occursIn (Expansion.render (.object []) e),
        occursIn (Expansion.templateBody "options" e))).toOption = some (true, true) := by
    decide +kernel
  cases hexpand : expand brokenHost.toHost brokenRoot with
  | mk result c =>
    rw [hexpand] at hcheck
    cases result with
    | error err => cases hcheck
    | ok e =>
      obtain ⟨hrender, hbody⟩ := Prod.mk.inj (Option.some.inj hcheck)
      exact ⟨e, c, rfl, hrender, hbody⟩

end Transclude
