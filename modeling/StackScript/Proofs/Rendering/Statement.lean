import StackScript.Proofs.Reading.Statement
import StackScript.Proofs.Rendering.Expression

/-!
# Reading declarations and statements from their tokens

Declarations and statements that obey the static rules are read from each of their spellings
(`Yields.declarations`, `Yields.statement`, `Yields.untilBrace`). A reader sees that they are at an
end by the word that does not follow: declarations end where there is no `var`, an `if` where there
is no `else` (`Lacks`).
-/

namespace StackScript

open Lexeme

/-! ## Plain names in view -/

namespace Names

variable {k : Names} {name : String}

theorem AllPlain.introduce (h : k.AllPlain) (hname : IsPlainName name) :
    (k.introduce name).AllPlain := by
  have hsnoc : ∀ {names : List String}, (∀ n ∈ names, IsPlainName n) →
      ∀ n ∈ names ++ [name], IsPlainName n := by
    intro names hnames n hn
    rcases List.mem_append.mp hn with hn | hn
    · exact hnames n hn
    · rw [List.mem_singleton.mp hn]
      exact hname
  obtain ⟨globals, functions, frame⟩ := k
  cases frame with
  | some vars => exact ⟨h.inGlobals, hsnoc h.inFrame, h.inFunctions⟩
  | none =>
    unfold Names.introduce
    simp only
    split
    · exact h
    · exact ⟨hsnoc h.inGlobals, h.inFrame, h.inFunctions⟩

theorem AllPlain.assigned (h : k.AllPlain) (hname : IsPlainName name) :
    (k.assigned name).AllPlain := by
  unfold Names.assigned
  split
  · exact h
  · exact h.introduce hname

/-- A variable that is assigned to has a plain name. -/
theorem AllPlain.target {strict : Bool} (h : k.AllPlain)
    (hname : (k.place? name).isSome ∨ strict = false ∧ k.frame = none ∧ IsPlainName name) :
    IsPlainName name := by
  rcases hname with hsome | ⟨-, -, hname⟩
  · obtain ⟨place, hplace⟩ := Option.isSome_iff_exists.mp hsome
    exact h.of_place? hplace
  · exact hname

end Names

section Plain

variable {strict : Bool} {k : Names}

theorem Decl.AllObey.allPlain (decls : List Decl) (hk : k.AllPlain)
    (h : Decl.AllObey IsPlainName k decls) : (Decl.afterAll k decls).AllPlain := by
  induction decls generalizing k with
  | nil => exact hk
  | cons d rest ih =>
    obtain ⟨hname, -, -, -, hrest⟩ := h
    exact ih (hk.introduce hname) hrest

mutual

theorem Stmt.Obeys.allPlain (st : Stmt) (k : Names) (hk : k.AllPlain)
    (h : st.Obeys strict IsPlainName k) : (st.after k).AllPlain := by
  match st with
  | .assign name place e => exact hk.assigned (hk.target h.2.1)
  | .call _ _ _ | .ret none | .ret (some _) => exact hk
  | .ifThen test body | .whileDo test body => exact Stmt.AllObey.allPlain body k hk h.2
  | .ifElse test body other =>
    exact Stmt.AllObey.allPlain other _ (Stmt.AllObey.allPlain body k hk h.2.1) h.2.2

theorem Stmt.AllObey.allPlain (body : List Stmt) (k : Names) (hk : k.AllPlain)
    (h : Stmt.AllObey strict IsPlainName k body) : (Stmt.afterAll k body).AllPlain := by
  match body with
  | [] => exact hk
  | st :: rest => exact Stmt.AllObey.allPlain rest _ (Stmt.Obeys.allPlain st k hk h.1) h.2

end

end Plain

/-! ## Words that do not follow -/

/-- The word `w` does not come next: nothing does, or a closing brace or another word. -/
inductive Lacks (w : String) : List Token → Prop
  | nil : Lacks w []
  | brace {ts : List Token} : Lacks w (.mark '}' :: ts)
  | word {w' : String} {ts : List Token} (hw' : IsWord w') (hne : w' ≠ w) (hsolid : Solid ts) :
      Lacks w (.word w' :: ts)

theorem solid_word {w : String} (hw : IsWord w) (ts : List Token) : Solid (.word w :: ts) :=
  (opensOperand_word hw).starts.solid ts

theorem Lacks.solid {w : String} {ts : List Token} (h : Lacks w ts) : Solid ts := by
  cases h with
  | nil => trivial
  | brace => exact solid_mark (by decide) _
  | word hw' hne hsolid => exact solid_word hw' _

theorem Reader.Yields.lacks {w : String} {ts : List Token} {P : Scope → Prop} (hw : IsWord w)
    (h : Lacks w ts) : Yields (scan (.word w)) ts P false ts P := by
  cases h with
  | nil => exact no_word hw trivial
  | brace => exact no_word hw (begins_mark (by decide))
  | word hw' hne hsolid => exact not_word hw hw' hne hsolid

/-! ## Declarations -/

theorem Decl.Spelled.head {d : Decl} {xs : List Token} (h : d.Spelled xs) :
    ∃ rest, xs = .word d.name :: rest := by
  obtain ⟨name, place, init⟩ := d
  cases init with
  | none => exact ⟨[], h⟩
  | some e =>
    obtain ⟨ys, -, rfl⟩ := h
    exact ⟨_, rfl⟩

theorem Decl.AllSpelled.solid {decls : List Decl} {xs ts : List Token}
    (h : Decl.AllSpelled decls xs) (hts : Solid ts) : Solid (xs ++ ts) := by
  cases h with
  | nil => exact hts
  | group _ _ => exact solid_word (isWord_of_mem_keywords (by decide)) _

namespace Reader

namespace Yields

variable {settings : Settings} {k : Names}

theorem declare {name : String} {p : Place} {ts : List Token} (hnew : name ∉ k.frameNames)
    (hplace : (k.introduce name).place? name = some p) (place : List Char) :
    Yields (Reader.declare name place) ts (Scope.Sees k) p ts (Scope.Sees (k.introduce name)) := by
  refine bind_scope fun s hs => ?_
  obtain ⟨hvalid, rfl⟩ := hs
  split
  · rename_i frame hframe
    have hfresh : name ∉ frame.names := by
      simpa [Names.frameNames, Scope.names, hframe] using hnew
    have hadd := Frame.addLocal?_eq_some_iff.mpr ⟨hfresh, rfl⟩
    obtain ⟨hnames, -, hat⟩ := Scope.addLocal_names hframe hadd
    rw [hadd]
    rw [hat] at hplace
    cases hplace
    exact (setScope ⟨hvalid.addLocal hframe hadd, hnames⟩).bind (pure _)
  · rename_i hframe
    obtain ⟨hnames, hat⟩ := Scope.declare_names hframe name
    rw [hat] at hplace
    cases hplace
    exact (setScope ⟨Scope.valid_of_frame_none hframe, hnames⟩).bind (pure _)

theorem declaration {d : Decl} {xs ts : List Token} (hk : k.AllPlain) (hspelled : d.Spelled xs)
    (hobeys : Decl.AllObey IsPlainName k [d]) (hdepth : d.depth ≤ settings.maxNesting)
    (hend : EndsExpr ts) :
    Yields (Reader.declaration settings) (xs ++ ts) (Scope.Sees k) d ts
      (Scope.Sees (k.introduce d.name)) := by
  obtain ⟨name, p, init⟩ := d
  obtain ⟨hname, hnew, hplace, hinit, -⟩ := hobeys
  cases init with
  | none =>
    cases hspelled
    refine bind_name hname.toIsName hend.solid fun place => ?_
    refine (declare hnew hplace place).bind ?_
    have hclosing : ∀ c ∈ closing, c ≠ '=' := forall_closing.mpr (by decide)
    exact (not_symbol (hend.begins.mono hclosing)).bind (pure _)
  | some e =>
    obtain ⟨xs, hxs, rfl⟩ := hspelled
    have hk' := hk.introduce hname
    have hwf := hinit e rfl
    obtain ⟨t, rest, rfl, ht⟩ := hxs.opensOperand hk' e hwf
    refine bind_name hname.toIsName (solid_mark (by decide) _) fun place => ?_
    refine (declare hnew hplace place).bind ?_
    refine (symbol (ht.starts.solid _)).bind ?_
    exact (expression settings hk' _ e _ _ hxs hwf hdepth hend).bind (pure _)

/-- Declared variables with commas between them. -/
theorem declarationItems (decls done : List Decl) {xss : List (List Token)}
    (hk : (Decl.afterAll k done).AllPlain) (hspelled : Decl.EachSpelled decls xss)
    (hobey : Decl.AllObey IsPlainName (Decl.afterAll k done) decls)
    (hdepth : Decl.depthAll decls ≤ settings.maxNesting) :
    Items (Reader.declaration settings) (fun done => Scope.Sees (Decl.afterAll k done)) done decls
      xss := by
  induction decls generalizing done xss with
  | nil =>
    cases hspelled
    exact .nil
  | cons d ds ih =>
    obtain ⟨xs, rest, hxs, hrest, rfl⟩ := hspelled
    obtain ⟨hd, hds⟩ := Nat.max_le.mp hdepth
    obtain ⟨hone, hmore⟩ := Decl.allObey_append.mp (show Decl.AllObey _ _ ([d] ++ ds) from hobey)
    obtain ⟨tail, rfl⟩ := hxs.head
    have hsnoc : Decl.afterAll k (done ++ [d]) = (Decl.afterAll k done).introduce d.name :=
      Decl.afterAll_append done [d]
    refine .cons (opensOperand_word hone.1.toIsWord) (fun ts hts => ?_) (ih _ ?_ hrest ?_ hds)
    · rw [hsnoc]
      exact declaration hk hxs hone hd hts
    · rw [hsnoc]
      exact hk.introduce hone.1
    · rw [hsnoc]
      exact hmore

theorem declarationGroup {d : Decl} {ds : List Decl} {xss : List (List Token)} {ts : List Token}
    (hk : k.AllPlain) (hspelled : Decl.EachSpelled (d :: ds) xss)
    (hobey : Decl.AllObey IsPlainName k (d :: ds))
    (hdepth : Decl.depthAll (d :: ds) ≤ settings.maxNesting) (hsolid : Solid ts) :
    Yields (Reader.declarationGroup settings) (.word "var" :: (commas xss ++ .mark ';' :: ts))
      (Scope.Sees k) (some (d :: ds)) ts (Scope.Sees (Decl.afterAll k (d :: ds))) := by
  have hitems := declarationItems (d :: ds) [] hk hspelled hobey hdepth
  cases hitems with
  | cons ht hitem hrest =>
    refine (word (isWord_of_mem_keywords (by decide)) (ht.starts.solid _)).bind ?_
    refine (commaList (.cons ht hitem hrest) (by decide) (fun P => ?_) fun P more hmore => ?_).bind
      ((expect hsolid).bind (pure _))
    · exact (not_symbol (begins_mark (by decide))).bind (pure _)
    · exact ⟨more, (symbol hmore).bind (pure _), pure ()⟩

theorem noDeclarationGroup {ts : List Token} {P : Scope → Prop} (h : Lacks "var" ts) :
    Yields (Reader.declarationGroup settings) ts P none ts P :=
  (lacks (isWord_of_mem_keywords (by decide)) h).bind (pure none)

theorem noDeclarations {ts : List Token} {P : Scope → Prop} (h : Lacks "var" ts) :
    Yields (Reader.declarations settings) ts P [] ts P :=
  (loop_none (noDeclarationGroup h)).bind (pure _)

/-- **Declarations are read from each of their spellings.** -/
theorem declarations {decls : List Decl} {xs ts : List Token} (hk : k.AllPlain)
    (hspelled : Decl.AllSpelled decls xs) (hobey : Decl.AllObey IsPlainName k decls)
    (hdepth : Decl.depthAll decls ≤ settings.maxNesting) (hend : Lacks "var" ts) :
    Yields (Reader.declarations settings) (xs ++ ts) (Scope.Sees k) decls ts
      (Scope.Sees (Decl.afterAll k decls)) := by
  -- the loop gives one list for each `var`, so the induction is on the groups
  suffices h : ∃ groups, groups.flatten = decls ∧
      Yields (Reader.loop (Reader.declarationGroup settings)) (xs ++ ts) (Scope.Sees k) groups ts
        (Scope.Sees (Decl.afterAll k decls)) by
    obtain ⟨groups, rfl, hgroups⟩ := h
    exact hgroups.bind (pure _)
  induction hspelled generalizing k with
  | nil =>
    exact ⟨[], rfl, loop_none (noDeclarationGroup hend)⟩
  | @group d ds rest xss ys hgroup hrest ih =>
    obtain ⟨hfirst, hmore⟩ := Decl.allObey_append.mp hobey
    rw [Decl.depthAll_append] at hdepth
    obtain ⟨hd, hds⟩ := Nat.max_le.mp hdepth
    have hsolid : Solid (ys ++ ts) := hrest.solid hend.solid
    obtain ⟨groups, rfl, hgroups⟩ := ih (hfirst.allPlain _ hk) hmore hds
    refine ⟨(d :: ds) :: groups, rfl, ?_⟩
    simp only [List.cons_append, List.append_assoc]
    refine loop_some (declarationGroup hk hgroup hfirst hd hsolid) ?_ ?_
    · simp only [List.length_cons, List.length_append]
      omega
    · rw [← List.cons_append, Decl.afterAll_append]
      exact hgroups

end Yields

end Reader

/-! ## Statements -/

/-- The words that begin a statement: names and three keywords. -/
def OpensStmt (w : String) : Prop := w ∈ ["return", "if", "while"] ∨ IsPlainName w

theorem OpensStmt.isWord {w : String} (h : OpensStmt w) : IsWord w := by
  rcases h with h | h
  · have hkeywords : ∀ w ∈ ["return", "if", "while"], w ∈ keywords := by decide
    exact isWord_of_mem_keywords (hkeywords w h)
  · exact h.toIsWord

theorem OpensStmt.ne {w w' : String} (h : OpensStmt w) (hw' : w' ∈ ["var", "else", "function"]) :
    w ≠ w' := by
  rcases h with h | h
  · rintro rfl
    simp only [List.mem_cons, List.not_mem_nil, or_false] at h
    rcases h with rfl | rfl | rfl <;> exact absurd hw' (by decide)
  · have hkeywords : ∀ w ∈ ["var", "else", "function"], w ∈ keywords := by decide
    exact ne_of_mem_keywords (hkeywords w' hw') h.toIsName

section Heads

variable {strict : Bool} {k : Names}

theorem Expr.Spelled.solid {e : Expr} {xs : List Token} (h : e.Spelled xs) (hk : k.AllPlain)
    (hwf : e.WellFormed k) (more : List Token) : Solid (xs ++ more) := by
  obtain ⟨t, rest, rfl, ht⟩ := h.opensOperand hk e hwf
  exact ht.starts.solid _

/-- Every statement begins with a word, and what is behind it can be told from it. -/
theorem Stmt.Spelled.head {st : Stmt} {xs : List Token} (h : st.Spelled xs) (hk : k.AllPlain)
    (hobeys : st.Obeys strict IsPlainName k) :
    ∃ w rest, xs = .word w :: rest ∧ OpensStmt w ∧ ∀ more, Solid (rest ++ more) := by
  cases st with
  | assign name place e =>
    obtain ⟨ys, -, rfl⟩ := h
    exact ⟨_, _, rfl, .inr (hk.target hobeys.2.1), fun more => solid_mark (by decide) _⟩
  | call name callee args =>
    obtain ⟨_, ⟨xss, -, rfl⟩, rfl⟩ := h
    exact ⟨_, _, rfl, .inr (hk.of_function? hobeys.1), fun more => solid_mark (by decide) _⟩
  | ret e =>
    cases e with
    | none =>
      cases h
      exact ⟨_, _, rfl, .inl (by decide), fun more => solid_mark (by decide) _⟩
    | some e =>
      obtain ⟨ys, hys, rfl⟩ := h
      refine ⟨_, _, rfl, .inl (by decide), fun more => ?_⟩
      rw [List.append_assoc]
      exact hys.solid hk hobeys _
  | ifThen test body | whileDo test body =>
    obtain ⟨ys, zs, hys, -, rfl⟩ := h
    refine ⟨_, _, rfl, .inl (by decide), fun more => ?_⟩
    rw [List.append_assoc]
    exact hys.solid hk hobeys.1 _
  | ifElse test body other =>
    obtain ⟨ys, zs, us, hys, -, -, rfl⟩ := h
    refine ⟨_, _, rfl, .inl (by decide), fun more => ?_⟩
    rw [List.append_assoc]
    exact hys.solid hk hobeys.1 _

theorem Stmt.Spelled.lacks {st : Stmt} {xs : List Token} {w : String} (h : st.Spelled xs)
    (hk : k.AllPlain) (hobeys : st.Obeys strict IsPlainName k)
    (hw : w ∈ ["var", "else", "function"]) (ts : List Token) : Lacks w (xs ++ ts) := by
  obtain ⟨w', rest, rfl, hopens, hsolid⟩ := h.head hk hobeys
  exact .word hopens.isWord (hopens.ne hw) (hsolid ts)

/-- Where statements begin none of these words does. -/
theorem Stmt.AllSpelled.lacks {body : List Stmt} {xs ts : List Token} {w : String}
    (h : Stmt.AllSpelled body xs) (hk : k.AllPlain) (hobey : Stmt.AllObey strict IsPlainName k body)
    (hw : w ∈ ["var", "else", "function"]) (hend : Lacks w ts) : Lacks w (xs ++ ts) := by
  cases body with
  | nil =>
    cases h
    exact hend
  | cons st rest =>
    obtain ⟨ys, zs, hys, -, rfl⟩ := h
    rw [List.append_assoc]
    exact hys.lacks hk hobey.1 hw _

end Heads

namespace Reader

/-- A reader that reads all statements on some levels. -/
def YieldsStmt (strict : Bool) (levels : Nat) (single : Reader Stmt) : Prop :=
  ∀ (k : Names) (st : Stmt) (xs ts : List Token), k.AllPlain → st.Spelled xs →
    st.Obeys strict IsPlainName k → st.depth ≤ levels → Lacks "else" ts →
      Yields single (xs ++ ts) (Scope.Sees k) st ts (Scope.Sees (st.after k))

/-- A reader that reads all bodies in braces on some levels. -/
def YieldsBody (strict : Bool) (levels : Nat) (block : Reader (List Stmt)) : Prop :=
  ∀ (k : Names) (body : List Stmt) (xs ts : List Token), k.AllPlain → Stmt.AllSpelled body xs →
    Stmt.AllObey strict IsPlainName k body → Stmt.depthAll body < levels → Solid ts →
      Yields block (braced xs ++ ts) (Scope.Sees k) body ts (Scope.Sees (Stmt.afterAll k body))

namespace Yields

variable {settings : Settings} {strict : Bool} {levels : Nat} {k : Names} {expr : Reader Expr}
  {block : Reader (List Stmt)} {single : Reader Stmt}

theorem target {name : String} {p : Place} {ts : List Token}
    (hname : (k.place? name).isSome ∨ settings.strict = false ∧ k.frame = none ∧ IsPlainName name)
    (hplace : (k.assigned name).place? name = some p) (place : List Char) :
    Yields (Reader.target settings name place) ts (Scope.Sees k) p ts
      (Scope.Sees (k.assigned name)) := by
  refine bind_scope fun s hs => ?_
  rw [Scope.place?_eq hs.1, hs.2]
  unfold Names.assigned at hplace ⊢
  cases hfound : k.place? name with
  | some q =>
    rw [hfound] at hplace
    obtain rfl : q = p := Option.some.inj (hfound.symm.trans hplace)
    exact pure q
  | none =>
    rw [hfound] at hname hplace
    obtain ⟨hstrict, hframe, -⟩ := hname.resolve_left (by decide)
    obtain ⟨hvalid, rfl⟩ := hs
    have hnone := Scope.frame_names_eq_none.mp hframe
    obtain ⟨hnames, hat⟩ := Scope.declare_names hnone name
    obtain rfl : Place.global _ = p := Option.some.inj (hat.symm.trans hplace)
    have hlax : ¬ (settings.strict || s.frame.isSome) = true := by
      rw [hstrict, hnone]
      decide
    rw [if_neg hlax]
    exact (setScope ⟨Scope.valid_of_frame_none hnone, hnames⟩).bind (pure _)

theorem returnNothing {ts : List Token} {P : Scope → Prop} (hsolid : Solid ts) :
    Yields (Reader.returnStatement expr) (.mark ';' :: ts) P (.ret none) ts P :=
  (symbol hsolid).bind (pure _)

theorem returnValue {e : Expr} {xs ts : List Token} (hexpr : YieldsExpr k levels expr)
    (hk : k.AllPlain) (hspelled : e.Spelled xs) (hwf : e.WellFormed k) (hdepth : e.depth ≤ levels)
    (hsolid : Solid ts) :
    Yields (Reader.returnStatement expr) (xs ++ .mark ';' :: ts) (Scope.Sees k) (.ret (some e)) ts
      (Scope.Sees k) := by
  obtain ⟨t, rest, rfl, ht⟩ := hspelled.opensOperand hk e hwf
  refine (not_symbol ((ht.begins _).ne (by decide))).bind ?_
  refine (hexpr e _ _ hspelled hwf hdepth ⟨';', _, by decide, rfl⟩).bind ?_
  exact (expect hsolid).bind (pure _)

/-- A body in braces ends the expression before it. -/
theorem endsExpr_braced (xs ts : List Token) : EndsExpr (braced xs ++ ts) :=
  ⟨'{', _, by decide, rfl⟩

theorem ifThen {test : Expr} {body : List Stmt} {xs ys ts : List Token}
    (hexpr : YieldsExpr k levels expr) (hblock : YieldsBody strict levels block) (hk : k.AllPlain)
    (htest : test.Spelled xs) (hbody : Stmt.AllSpelled body ys)
    (hobeys : (Stmt.ifThen test body).Obeys strict IsPlainName k)
    (hdepth : (Stmt.ifThen test body).depth ≤ levels) (hend : Lacks "else" ts) :
    Yields (Reader.ifStatement expr block) (xs ++ (braced ys ++ ts)) (Scope.Sees k)
      (.ifThen test body) ts (Scope.Sees (Stmt.afterAll k body)) := by
  obtain ⟨hd, hds⟩ := Nat.max_le.mp hdepth
  refine (hexpr test _ _ htest hobeys.1 hd (endsExpr_braced ys ts)).bind ?_
  refine (hblock k body ys ts hk hbody hobeys.2 hds hend.solid).bind ?_
  exact (lacks (isWord_of_mem_keywords (by decide)) hend).bind (pure _)

theorem ifElse {test : Expr} {body other : List Stmt} {xs ys zs ts : List Token}
    (hexpr : YieldsExpr k levels expr) (hblock : YieldsBody strict levels block) (hk : k.AllPlain)
    (htest : test.Spelled xs) (hbody : Stmt.AllSpelled body ys) (hother : Stmt.AllSpelled other zs)
    (hobeys : (Stmt.ifElse test body other).Obeys strict IsPlainName k)
    (hdepth : (Stmt.ifElse test body other).depth ≤ levels) (hsolid : Solid ts) :
    Yields (Reader.ifStatement expr block)
      (xs ++ (braced ys ++ .word "else" :: (braced zs ++ ts))) (Scope.Sees k)
      (.ifElse test body other) ts (Scope.Sees (Stmt.afterAll (Stmt.afterAll k body) other)) := by
  obtain ⟨hd, hds⟩ := Nat.max_le.mp hdepth
  obtain ⟨hyes, hno⟩ := Nat.max_lt.mp hds
  have helse : IsWord "else" := isWord_of_mem_keywords (by decide)
  refine (hexpr test _ _ htest hobeys.1 hd (endsExpr_braced ys _)).bind ?_
  refine (hblock k body ys _ hk hbody hobeys.2.1 hyes (solid_word helse _)).bind ?_
  refine (word helse (endsExpr_braced zs ts).solid).bind ?_
  exact (hblock _ other zs ts (hobeys.2.1.allPlain body k hk) hother hobeys.2.2 hno hsolid).bind
    (pure _)

theorem whileDo {test : Expr} {body : List Stmt} {xs ys ts : List Token}
    (hexpr : YieldsExpr k levels expr) (hblock : YieldsBody strict levels block) (hk : k.AllPlain)
    (htest : test.Spelled xs) (hbody : Stmt.AllSpelled body ys)
    (hobeys : (Stmt.whileDo test body).Obeys strict IsPlainName k)
    (hdepth : (Stmt.whileDo test body).depth ≤ levels) (hsolid : Solid ts) :
    Yields (Reader.whileStatement expr block) (xs ++ (braced ys ++ ts)) (Scope.Sees k)
      (.whileDo test body) ts (Scope.Sees (Stmt.afterAll k body)) := by
  obtain ⟨hd, hds⟩ := Nat.max_le.mp hdepth
  refine (hexpr test _ _ htest hobeys.1 hd (endsExpr_braced ys ts)).bind ?_
  exact (hblock k body ys ts hk hbody hobeys.2 hds hsolid).bind (pure _)

theorem assign {name : String} {p : Place} {e : Expr} {xs ts : List Token}
    (hexpr : YieldsExpr k levels expr) (hk : k.AllPlain) (hspelled : e.Spelled xs)
    (hobeys : (Stmt.assign name p e).Obeys settings.strict IsPlainName k)
    (hdepth : e.depth ≤ levels) (hsolid : Solid ts) :
    Yields (Reader.plainStatement settings expr)
      (.word name :: .mark '=' :: (xs ++ .mark ';' :: ts)) (Scope.Sees k) (.assign name p e) ts
      (Scope.Sees (k.assigned name)) := by
  obtain ⟨hwf, hname, hplace⟩ := hobeys
  obtain ⟨t, rest, rfl, ht⟩ := hspelled.opensOperand hk e hwf
  refine bind_name (hk.target hname).toIsName (solid_mark (by decide) _) fun place => ?_
  refine (not_symbol (begins_mark (by decide))).bind ?_
  refine (symbol (ht.starts.solid _)).bind ?_
  refine (hexpr e _ _ hspelled hwf hdepth ⟨';', _, by decide, rfl⟩).bind ?_
  refine (target hname hplace place).bind ?_
  exact (expect hsolid).bind (pure _)

theorem callStatement {name : String} {callee : Nat} {args : List Expr} {xss : List (List Token)}
    {ts : List Token} (hexpr : YieldsExpr k levels expr) (hk : k.AllPlain)
    (hspelled : Expr.AllSpelled args xss) (hwf : (Expr.call name callee args).WellFormed k)
    (hdepth : Expr.depthAll args ≤ levels) (hsolid : Solid ts) :
    Yields (Reader.plainStatement settings expr)
      (.word name :: .mark '(' :: (commas xss ++ .mark ')' :: .mark ';' :: ts)) (Scope.Sees k)
      (.call name callee args) ts (Scope.Sees k) := by
  have hargs := arguments hexpr hk [] args hspelled hwf.2 hdepth
  refine bind_name (hk.of_function? hwf.1).toIsName (solid_mark (by decide) _) fun place => ?_
  refine (symbol (hargs.solid _)).bind ?_
  refine (call hargs (solid_mark (by decide) _) hwf place).bind ?_
  exact (expect hsolid).bind (pure _)

/-- A call or an assignment begins with no keyword. -/
theorem toPlain {w : String} (hw : IsName w) {st : Stmt} {ts ts' : List Token}
    {P P' : Scope → Prop} (hsolid : Solid ts)
    (h : Yields (Reader.plainStatement settings expr) (.word w :: ts) P st ts' P') :
    Yields (Reader.statementWith settings expr block) (.word w :: ts) P st ts' P' := by
  refine (not_keyword (by decide) hw hsolid).bind ?_
  refine (not_keyword (by decide) hw hsolid).bind ?_
  refine (not_keyword (by decide) hw hsolid).bind ?_
  refine skipBlanks.bind (bind_get fun r => ?_)
  exact (not_keyword (by decide) hw hsolid).bind h

theorem statementWith (hexpr : ∀ k : Names, k.AllPlain → YieldsExpr k levels expr)
    (hblock : YieldsBody settings.strict levels block) :
    YieldsStmt settings.strict levels (Reader.statementWith settings expr block) := by
  intro k st xs ts hk hspelled hobeys hdepth hend
  have hreturn : IsWord "return" := isWord_of_mem_keywords (by decide)
  have hif : IsWord "if" := isWord_of_mem_keywords (by decide)
  have hwhile : IsWord "while" := isWord_of_mem_keywords (by decide)
  have hsolid := hend.solid
  -- the first word decides; a reader tries the keywords in turn before it takes a name
  cases st with
  | assign name place e =>
    obtain ⟨ys, hys, rfl⟩ := hspelled
    simp only [List.cons_append, List.append_assoc, List.nil_append]
    exact toPlain (hk.target hobeys.2.1).toIsName (solid_mark (by decide) _)
      (assign (hexpr k hk) hk hys hobeys hdepth hsolid)
  | call name callee args =>
    obtain ⟨_, ⟨xss, hxss, rfl⟩, rfl⟩ := hspelled
    simp only [List.cons_append, List.append_assoc, List.nil_append]
    exact toPlain (hk.of_function? hobeys.1).toIsName (solid_mark (by decide) _)
      (callStatement (hexpr k hk) hk hxss hobeys hdepth hsolid)
  | ret e =>
    cases e with
    | none =>
      cases hspelled
      exact (word hreturn (solid_mark (by decide) _)).bind (returnNothing hsolid)
    | some e =>
      obtain ⟨ys, hys, rfl⟩ := hspelled
      simp only [List.cons_append, List.append_assoc, List.nil_append]
      refine (word hreturn (hys.solid hk hobeys _)).bind ?_
      exact returnValue (hexpr k hk) hk hys hobeys hdepth hsolid
  | ifThen test body =>
    obtain ⟨ys, zs, hys, hzs, rfl⟩ := hspelled
    have hnext := hys.solid hk hobeys.1 (braced zs ++ ts)
    rw [List.cons_append, List.append_assoc]
    refine (not_word hreturn hif (by decide) hnext).bind ((word hif hnext).bind ?_)
    exact ifThen (hexpr k hk) hblock hk hys hzs hobeys hdepth hend
  | ifElse test body other =>
    obtain ⟨ys, zs, us, hys, hzs, hus, rfl⟩ := hspelled
    have hnext := hys.solid hk hobeys.1 (braced zs ++ .word "else" :: (braced us ++ ts))
    simp only [List.cons_append, List.append_assoc]
    refine (not_word hreturn hif (by decide) hnext).bind ((word hif hnext).bind ?_)
    exact ifElse (hexpr k hk) hblock hk hys hzs hus hobeys hdepth hsolid
  | whileDo test body =>
    obtain ⟨ys, zs, hys, hzs, rfl⟩ := hspelled
    have hnext := hys.solid hk hobeys.1 (braced zs ++ ts)
    rw [List.cons_append, List.append_assoc]
    refine (not_word hreturn hwhile (by decide) hnext).bind ?_
    refine (not_word hif hwhile (by decide) hnext).bind ((word hwhile hnext).bind ?_)
    exact whileDo (hexpr k hk) hblock hk hys hzs hobeys hdepth hsolid

/-- Statements are read up to their closing brace. -/
theorem untilBrace (hsingle : YieldsStmt strict levels single) (hk : k.AllPlain) {ts : List Token}
    (hsolid : Solid ts) (body : List Stmt) {xs : List Token} (hspelled : Stmt.AllSpelled body xs)
    (hobey : Stmt.AllObey strict IsPlainName k body) (hdepth : Stmt.depthAll body ≤ levels) :
    Yields (Reader.untilBrace single) (xs ++ .mark '}' :: ts) (Scope.Sees k) body ts
      (Scope.Sees (Stmt.afterAll k body)) := by
  induction body generalizing k xs with
  | nil =>
    cases hspelled
    exact loop_none ((symbol hsolid).bind (pure none))
  | cons st rest ih =>
    obtain ⟨ys, zs, hys, hzs, rfl⟩ := hspelled
    obtain ⟨hd, hds⟩ := Nat.max_le.mp hdepth
    have hk' := hobey.1.allPlain st k hk
    have hnext : Lacks "else" (zs ++ .mark '}' :: ts) :=
      hzs.lacks hk' hobey.2 (by decide) .brace
    obtain ⟨w, tail, rfl, hopens, -⟩ := hys.head hk hobey.1
    have hfirst := begins_word hopens.isWord (tail ++ (zs ++ .mark '}' :: ts))
    rw [List.append_assoc]
    refine loop_some ?_ ?_ (ih hk' hzs hobey.2 hds)
    · refine (not_symbol (hfirst.ne (by decide))).bind ?_
      refine (not_atEnd (hfirst.mono fun _ _ => trivial)).bind ?_
      exact (hsingle k st _ _ hk hys hobey.1 hd hnext).bind (pure _)
    · simp only [List.cons_append, List.length_cons, List.length_append]
      omega

theorem bodyOf (hsingle : YieldsStmt strict levels single) :
    YieldsBody strict (levels + 1) (Reader.bodyOf single) := by
  intro k body xs ts hk hspelled hobey hdepth hsolid
  have hfirst : Solid (xs ++ .mark '}' :: ts) :=
    (hspelled.lacks (w := "var") hk hobey (by decide) .brace).solid
  rw [braced, List.cons_append, List.append_assoc]
  refine (symbol hfirst).bind ?_
  exact untilBrace hsingle hk hsolid body hspelled hobey (Nat.le_of_lt_succ hdepth)

theorem body (settings : Settings) (levels : Nat) :
    YieldsBody settings.strict levels (Reader.body settings levels) := by
  induction levels with
  | zero =>
    intro k body xs ts hk hspelled hobey hdepth hsolid
    exact absurd hdepth (Nat.not_lt_zero _)
  | succ levels ih =>
    exact bodyOf (statementWith (fun k hk => expression settings hk levels) ih)

/-- **Every statement that obeys the rules is read from each of its spellings.** -/
theorem statement (settings : Settings) :
    YieldsStmt settings.strict settings.maxNesting (Reader.statement settings) :=
  statementWith (fun _ hk => expression settings hk _) (body settings _)

end Yields

end Reader

end StackScript
