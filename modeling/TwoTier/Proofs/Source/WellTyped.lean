import TwoTier.Proofs.Source.Printing

/-! # Types of what is read

An expression that is read has no free references, since each name is looked up where it stands. It
is well-typed exactly if its intrinsics have the types that their arguments imply. A text that calls
its intrinsics by their names has no others; one that writes down the type of an intrinsic and calls
it may be wrong about it.
-/

namespace TwoTier

namespace Expr

theorem callsImplied_of {e : Expr} (h : e.isImpliedCall = true)
    (hchildren : ∀ c ∈ e.children, c.CallsImplied) :
    e.CallsImplied := by
  intro e' he'
  rcases mem_subterms.mp he' with rfl | ⟨c, hc, he'⟩
  · exact h
  · exact hchildren c hc e' he'

theorem callsImplied_call {f a : Expr} {t : Ty} (h : checkImplied f a = .ok ())
    (hf : f.CallsImplied) (ha : a.CallsImplied) : (Expr.call f a t).CallsImplied :=
  callsImplied_of (by simp [isImpliedCall, h, Except.isOk, Except.toBool])
    (by simp [children, hf, ha])

theorem callsImplied_mkBlock {ls : List (String × Expr)} {r : Expr}
    (hls : ∀ l ∈ ls, l.2.CallsImplied) (hr : r.CallsImplied) : (mkBlock ls r).CallsImplied := by
  cases ls with
  | nil => exact hr
  | cons l ls =>
    exact callsImplied_of rfl
      (List.forall_mem_append.mpr ⟨List.forall_mem_map.mpr hls, by simpa using hr⟩)

end Expr

namespace Source

variable {scope scope' : Scope} {tree : Tree} {e : Expr}

namespace Tree

mutual

def nodes : Tree → List Tree
  | .tuple es s => .tuple es s :: nodesEach es
  | .call f as s => .call f as s :: (f.nodes ++ nodesEach as)
  | .select e i s => .select e i s :: e.nodes
  | .lambda p e s => .lambda p e s :: e.nodes
  | .letIn bs e s => .letIn bs e s :: (nodesBound bs ++ e.nodes)
  | e => [e]

def nodesEach : List Tree → List Tree
  | [] => []
  | e :: es => e.nodes ++ nodesEach es

def nodesBound : List (Ident × Tree) → List Tree
  | [] => []
  | (_, e) :: bs => e.nodes ++ nodesBound bs

end

theorem mem_nodesEach {es : List Tree} {n : Tree} : n ∈ nodesEach es ↔ ∃ e ∈ es, n ∈ e.nodes := by
  induction es with
  | nil => simp [nodesEach]
  | cons e es ih => simp [nodesEach, ih]

theorem mem_nodesBound {bs : List (Ident × Tree)} {n : Tree} :
    n ∈ nodesBound bs ↔ ∃ b ∈ bs, n ∈ b.2.nodes := by
  induction bs with
  | nil => simp [nodesBound]
  | cons b bs ih => simp [nodesBound, ih]

/-- The tree is an intrinsic that is known, and given with a type. -/
def isTypedIntrinsic : Tree → Bool
  | .intrinsic uri _ _ => (Intrinsic.ofUri? uri).isSome
  | .letIn [] e _ => e.isTypedIntrinsic
  | _ => false

/-- If the node calls an intrinsic that is known, then by its name, or without an argument. -/
def callsByName : Tree → Bool
  | .call f as _ => as.isEmpty || !f.isTypedIntrinsic
  | _ => true

end Tree

theorem packed_getD_cases {es : List Expr} {P : Expr → Prop} (h : ∀ e ∈ es, P e)
    (htuple : P (.mkTuple es)) :
    P ((packed es).getD .unit) := by
  cases ha : packed es with
  | some a => exact packed_cases ha h htuple
  | none =>
    cases es with
    | nil => exact htuple
    | cons e es => cases es <;> cases ha

theorem mem_scope_of_refers {x : String} (h : tree.toExpr scope = .ok e) (hx : e.Refers x) :
    x ∈ scope.map Prod.fst := by
  induction tree generalizing scope e with
  | int | float | bool =>
    cases h
    simp [Expr.int, Expr.float, Expr.boolean] at hx
  | name y span =>
    obtain ⟨u, hu, rfl⟩ := toExpr_name.mp h
    obtain rfl := Expr.refers_ref.mp hx
    obtain ⟨_, _, rfl, -⟩ := List.lookup_eq_some_iff.mp hu
    simp
  | builtin y t span =>
    obtain ⟨b, u, -, -, -, rfl⟩ := toExpr_builtin.mp h
    simp at hx
  | tuple as span ih =>
    obtain ⟨es, hes, rfl⟩ := toExpr_tuple.mp h
    obtain ⟨e, he, hx⟩ := Expr.refers_tuple.mp hx
    obtain ⟨a, ha, hae⟩ := forall₂_mem hes.flip he
    exact ih a ha hae hx
  | call f as span ihf iha =>
    obtain ⟨es, hes, hcall⟩ := toExpr_call.mp h
    have hargs : ∀ e ∈ es, e.Refers x → x ∈ scope.map Prod.fst := by
      intro e he
      obtain ⟨a, ha, hae⟩ := forall₂_mem hes.flip he
      exact iha a ha hae
    have htuple : (Expr.mkTuple es).Refers x → x ∈ scope.map Prod.fst := by
      intro hx
      obtain ⟨e, he, hx⟩ := Expr.refers_tuple.mp hx
      exact hargs e he hx
    rcases hcall with ⟨-, rfl, -⟩ | ⟨-, hg, ha, -, -⟩ | ⟨-, hg, -, -⟩
    · simp only [Expr.refers_call, Expr.refers_intrinsic, false_or] at hx
      exact packed_getD_cases (P := fun a => a.Refers x → x ∈ scope.map Prod.fst) hargs htuple hx
    · rcases Expr.refers_call.mp hx with hx | hx
      · exact ihf hg hx
      · exact packed_cases (P := fun a => a.Refers x → x ∈ scope.map Prod.fst) ha hargs htuple hx
    · exact ihf hg hx
  | select a i span ih =>
    obtain ⟨e', he, ts, u, -, -, rfl⟩ := toExpr_select.mp h
    exact ih he hx
  | lambda p b span ih =>
    cases p with
    | none =>
      obtain ⟨e', he, rfl⟩ := toExpr_delay.mp h
      exact ih he (Expr.refers_lambda.mp hx).1
    | some p =>
      obtain ⟨u, -, e', he, rfl⟩ := toExpr_lambda.mp h
      obtain ⟨hx, hne⟩ := Expr.refers_lambda.mp hx
      obtain rfl | hmem := List.mem_cons.mp (ih he hx)
      · exact absurd rfl hne
      · exact hmem
  | letIn bs b span ihl ihb =>
    obtain ⟨ls, scope', hls, r, hr, rfl⟩ := toExpr_letIn.mp h
    replace hx := (Expr.refers_mkBlock (t := r.ty)).mp hx
    clear h
    induction bs generalizing scope ls with
    | nil =>
      cases hls
      exact ihb hr hx
    | cons b bs ih =>
      obtain ⟨e, he, ls, hrest, rfl⟩ := toLocals_cons.mp hls
      obtain hx | ⟨hne, hx⟩ := Expr.refers_block_cons.mp hx
      · exact ihl b (by simp) he hx
      · obtain rfl | hmem := List.mem_cons.mp (ih (fun b hb => ihl b (by simp [hb])) ls hrest hx)
        · exact absurd rfl hne
        · exact hmem
  | intrinsic uri t span =>
    obtain ⟨u, -, rfl⟩ := toExpr_intrinsic.mp h
    simp at hx

theorem free_of_read {source : String} (h : read source = .ok e) : e.free = [] := by
  obtain ⟨tree, -, htree⟩ := read_ok.mp h
  refine List.eq_nil_iff_forall_not_mem.mpr fun x hx => ?_
  simpa using mem_scope_of_refers htree (Expr.mem_free.mp hx)

theorem isTypedIntrinsic_of_toExpr {uri : String} {t : Ty}
    (h : tree.toExpr scope = .ok (.intrinsic uri t)) :
    tree.isTypedIntrinsic = (Intrinsic.ofUri? uri).isSome := by
  induction tree generalizing scope with
  | int | float | bool => cases h
  | name y span =>
    obtain ⟨u, -, heq⟩ := toExpr_name.mp h
    cases heq
  | builtin y t span =>
    obtain ⟨b, u, -, -, -, heq⟩ := toExpr_builtin.mp h
    cases heq
  | tuple as span =>
    obtain ⟨es, -, heq⟩ := toExpr_tuple.mp h
    cases heq
  | call f as span =>
    obtain ⟨es, -, hcall⟩ := toExpr_call.mp h
    cases hcall
  | select a i span =>
    obtain ⟨e', -, ts, u, -, -, heq⟩ := toExpr_select.mp h
    cases heq
  | lambda p b span =>
    cases p with
    | none =>
      obtain ⟨e', -, heq⟩ := toExpr_delay.mp h
      cases heq
    | some p =>
      obtain ⟨u, -, e', -, heq⟩ := toExpr_lambda.mp h
      cases heq
  | letIn bs b span ihl ihb =>
    obtain ⟨ls, scope', hls, r, hr, heq⟩ := toExpr_letIn.mp h
    cases bs with
    | nil =>
      cases hls
      cases heq
      exact ihb hr
    | cons b bs =>
      obtain ⟨e, -, ls, -, rfl⟩ := toLocals_cons.mp hls
      cases heq
  | intrinsic uri t span =>
    obtain ⟨u, -, heq⟩ := toExpr_intrinsic.mp h
    cases heq
    rfl

/-- A text that calls intrinsics by their names calls them at the types that their arguments
imply. -/
theorem callsImplied_toExpr (h : tree.toExpr scope = .ok e)
    (hnodes : ∀ n ∈ tree.nodes, n.callsByName = true) :
    e.CallsImplied := by
  induction tree generalizing scope e with
  | int | float | bool =>
    cases h
    exact Expr.callsImplied_of rfl (by simp [Expr.int, Expr.float, Expr.boolean, Expr.children])
  | name y span =>
    obtain ⟨u, -, rfl⟩ := toExpr_name.mp h
    exact Expr.callsImplied_of rfl (by simp [Expr.children])
  | builtin y t span =>
    obtain ⟨b, u, -, -, -, rfl⟩ := toExpr_builtin.mp h
    exact Expr.callsImplied_of rfl (by simp [Expr.children])
  | tuple as span ih =>
    obtain ⟨es, hes, rfl⟩ := toExpr_tuple.mp h
    refine Expr.callsImplied_of rfl fun e he => ?_
    obtain ⟨a, ha, hae⟩ := forall₂_mem hes.flip he
    exact ih a ha hae fun n hn =>
      hnodes n (List.mem_cons_of_mem _ (Tree.mem_nodesEach.mpr ⟨a, ha, hn⟩))
  | call f as span ihf iha =>
    obtain ⟨es, hes, hcall⟩ := toExpr_call.mp h
    simp only [Tree.nodes, List.forall_mem_cons, List.forall_mem_append,
      Tree.mem_nodesEach] at hnodes
    obtain ⟨hcalls, hf, has⟩ := hnodes
    have hargs : ∀ e ∈ es, e.CallsImplied := by
      intro e he
      obtain ⟨a, ha, hae⟩ := forall₂_mem hes.flip he
      exact iha a ha hae fun n hn => has n ⟨a, ha, hn⟩
    have htuple : (Expr.mkTuple es).CallsImplied := Expr.callsImplied_of rfl hargs
    rcases hcall with @⟨op, a, r, hop, rfl, hr⟩ | @⟨g, a, p, r, -, hg, ha, -, -⟩ | ⟨-, hg, -, -⟩
    · have hintrinsic :
          (Expr.intrinsic op.uri (.func ((packed es).getD .unit).ty r)).CallsImplied :=
        Expr.callsImplied_of rfl (by simp [Expr.children])
      refine Expr.callsImplied_call (Expr.checkImplied_ok.mpr ?_) hintrinsic
        (packed_getD_cases hargs htuple)
      rintro _ _ op' ⟨⟩ hop'
      cases (Intrinsic.ofUri?_uri op).symm.trans hop'
      exact ⟨r, hr, rfl⟩
    · refine Expr.callsImplied_call (Expr.checkImplied_ok.mpr ?_) (ihf hg hf)
        (packed_cases ha hargs htuple)
      -- The function is an intrinsic with a type of its own, and the call has an argument.
      rintro uri u op rfl hop
      have hne : as ≠ [] := by
        rintro rfl
        cases hes
        cases ha
      simp [Tree.callsByName, hne, isTypedIntrinsic_of_toExpr hg, hop] at hcalls
    · exact Expr.callsImplied_of rfl (by simpa [Expr.children] using ihf hg hf)
  | select a i span ih =>
    obtain ⟨e', he, ts, u, -, -, rfl⟩ := toExpr_select.mp h
    refine Expr.callsImplied_of rfl ?_
    simpa [Expr.children] using ih he fun n hn => hnodes n (List.mem_cons_of_mem _ hn)
  | lambda p b span ih =>
    replace ih := fun scope e he => @ih scope e he fun n hn => hnodes n (List.mem_cons_of_mem _ hn)
    cases p with
    | none =>
      obtain ⟨e', he, rfl⟩ := toExpr_delay.mp h
      exact Expr.callsImplied_of rfl (by simpa [Expr.mkDelay, Expr.children] using ih _ _ he)
    | some p =>
      obtain ⟨u, -, e', he, rfl⟩ := toExpr_lambda.mp h
      exact Expr.callsImplied_of rfl (by simpa [Expr.mkLambda, Expr.children] using ih _ _ he)
  | letIn bs b span ihl ihb =>
    obtain ⟨ls, scope', hls, r, hr, rfl⟩ := toExpr_letIn.mp h
    simp only [Tree.nodes, List.forall_mem_cons, List.forall_mem_append,
      Tree.mem_nodesBound] at hnodes
    obtain ⟨-, hbs, hb⟩ := hnodes
    refine Expr.callsImplied_mkBlock ?_ (ihb hr hb)
    clear hr h
    induction bs generalizing scope ls with
    | nil =>
      cases hls
      simp
    | cons b bs ih =>
      obtain ⟨e, he, ls, hrest, rfl⟩ := toLocals_cons.mp hls
      refine List.forall_mem_cons.mpr ⟨ihl b (by simp) he fun n hn => hbs n ⟨b, by simp, hn⟩, ?_⟩
      refine ih (fun b hb => ihl b (by simp [hb])) ls hrest ?_
      rintro n ⟨b, hb, hn⟩
      exact hbs n ⟨b, by simp [hb], hn⟩
  | intrinsic uri t span =>
    obtain ⟨u, -, rfl⟩ := toExpr_intrinsic.mp h
    exact Expr.callsImplied_of rfl (by simp [Expr.children])

/-- What is read is closed, and well-typed exactly if its intrinsics have the types that their
arguments imply. So it is if the text calls them by their names. -/
theorem read_wellTyped {source : String} (h : read source = .ok e) :
    e.free = [] ∧ (e.check = .ok () ↔ e.CallsImplied) ∧
      ∀ tree, parse source = .ok tree → (∀ n ∈ tree.nodes, n.callsByName = true) →
      e.check = .ok () := by
  obtain ⟨tree, hparse, htree⟩ := read_ok.mp h
  refine ⟨free_of_read h, ⟨Expr.callsImplied_of_check, check_toExpr htree⟩,
    fun tree' hparse' hnodes => ?_⟩
  cases hparse.symm.trans hparse'
  exact check_toExpr htree (callsImplied_toExpr htree hnodes)

/-- A local with the name of an intrinsic, and an intrinsic at a type that no argument implies,
which is not called. -/
def hiddenIntrinsic : String :=
  "let federated_map = (x: int32 -> x), f = intrinsic \"federated_map\" : (int32 -> bool) in " ++
  "<federated_map(1), f>"

theorem read_wellTyped_hidden : ∃ tree e, parse hiddenIntrinsic = .ok tree ∧
    (∀ n ∈ tree.nodes, n.callsByName = true) ∧ read hiddenIntrinsic = .ok e ∧ e.free = [] ∧
    e.check = .ok () := by
  obtain ⟨tree, hparse, hnodes⟩ : ∃ tree, parse hiddenIntrinsic = .ok tree ∧
      tree.nodes.all Tree.callsByName = true := except_any (by decide +kernel)
  obtain ⟨e, hread⟩ : ∃ e, read hiddenIntrinsic = .ok e := except_isOk (by decide +kernel)
  rw [List.all_eq_true] at hnodes
  obtain ⟨hfree, -, hcheck⟩ := read_wellTyped hread
  exact ⟨tree, e, hparse, hnodes, hread, hfree, hcheck tree hparse hnodes⟩

/-- Broadcasts take a value of the coordinator, whatever type the text gives them. -/
theorem read_illTyped :
    ∃ e, read "(intrinsic \"federated_broadcast\" : (int32 -> int32))(1)" = .ok e ∧
    e.free = [] ∧ e.check ≠ .ok () := by
  obtain ⟨e, hread, h⟩ :
      ∃ e, read "(intrinsic \"federated_broadcast\" : (int32 -> int32))(1)" = .ok e ∧
      (e.free.isEmpty && !e.check.isOk) = true := except_any (by decide +kernel)
  simp only [Bool.and_eq_true, List.isEmpty_iff, Bool.not_eq_true'] at h
  refine ⟨e, hread, h.1, fun hok => ?_⟩
  simp [hok, Except.isOk, Except.toBool] at h

end Source

end TwoTier
