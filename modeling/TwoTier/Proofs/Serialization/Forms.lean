import TwoTier.Form.Json
import TwoTier.Proofs.Forms
import TwoTier.Proofs.Locality
import TwoTier.Proofs.Serialization.Text

/-! # Serialized forms are read back

Types and expressions are read back from the data that they are written as. A form is read back from
its text, since its payloads say all about it, unless the text nests deeper than the reader admits.
-/

namespace TwoTier

namespace Json

variable {n : Nat} {j : Json}

theorem heightItems_le {items : List Json} : heightItems items ≤ n ↔ ∀ j ∈ items, j.height ≤ n := by
  induction items with
  | nil => simp [heightItems]
  | cons j js ih => simp [heightItems, ih]

theorem heightFields_le {fields : List (String × Json)} :
    heightFields fields ≤ n ↔ ∀ f ∈ fields, f.2.height ≤ n := by
  induction fields with
  | nil => simp [heightFields]
  | cons f fs ih => simp [heightFields, ih]

theorem height_field {fields : List (String × Json)} (h : (Json.obj fields).height ≤ n) :
    ∀ f ∈ fields, f.2.height ≤ n :=
  heightFields_le.mp (Nat.le_of_succ_le h)

theorem height_item {items : List Json} (h : (Json.arr items).height ≤ n) :
    ∀ j ∈ items, j.height ≤ n :=
  heightItems_le.mp (Nat.le_of_succ_le h)

theorem height_content {tag : String} (h : (Json.tagged tag j).height ≤ n + 1) : j.height ≤ n :=
  heightFields_le.mp (Nat.le_of_succ_le_succ h) (tag, j) (by simp)

theorem exists_of_height_le (h : j.height ≤ n) : ∃ m, n = m + 1 := by
  have hpos : 0 < j.height := by cases j <;> simp [height]
  exact Nat.exists_eq_succ_of_ne_zero (by omega)

theorem exact_record {x y : String} {a b : Json} (ha : a.Exact) (hb : b.Exact) :
    (Json.obj [(x, a), (y, b)]).Exact :=
  .obj (List.forall_mem_cons.mpr ⟨ha, List.forall_mem_singleton.mpr hb⟩)

theorem Exact.tagged {tag : String} (h : j.Exact) : (Json.tagged tag j).Exact :=
  .obj (List.forall_mem_singleton.mpr h)

end Json

namespace Ty

variable {t : Ty} {n : Nat} {style : Json.Style}

theorem toJsons_eq (ts : List Ty) : toJsons ts = ts.map toJson := by
  induction ts with
  | nil => rfl
  | cons t ts ih => rw [toJsons, ih, List.map_cons]

theorem toJson_tagged (t : Ty) : ∃ tag j, t.toJson = .tagged tag j := by
  cases t <;> exact ⟨_, _, rfl⟩

theorem exact_toJson (t : Ty) : t.toJson.Exact := by
  induction t with
  | scalar k => exact .tagged .str
  | tuple ts ih =>
    rw [toJson, toJsons_eq]
    exact .tagged (.arr (List.forall_mem_map.mpr ih))
  | seq t ih => exact ih.tagged
  | func p r ihp ihr => exact .tagged (Json.exact_record ihp ihr)
  | thunk r ih => exact .tagged (Json.exact_record .null ih)
  | placed m p e ih => exact .tagged (.obj (by simp [ih, Json.Exact.str, Json.Exact.bool]))

section Nodes

variable {a b : Json}

theorem decode_tuple {js : List Json} :
    decode style (n + 1) (.tagged "Struct" (.arr js)) = (js.mapM (decode style n)).bind fun ts =>
    some (.tuple ts) :=
  rfl

theorem decode_seq : decode style (n + 1) (.tagged "Sequence" a) = (decode style n a).bind fun t =>
    some (.seq t) :=
  rfl

theorem decode_func {tag : String} :
    decode style (n + 1) (.tagged "Function" (.obj [("parameter", .tagged tag a), ("result", b)])) =
      (decode style n b).bind fun r => (decode style n (.tagged tag a)).bind fun p =>
        some (.func p r) := by
  cases style <;> rfl

theorem decode_thunk :
    decode style (n + 1) (.tagged "Function" (.obj [("parameter", .null), ("result", b)])) =
    (decode style n b).bind fun r => some (.thunk r) := by
  cases style <;> rfl

theorem decode_placed {p : Placement} {e : Bool} : decode style (n + 1) (.tagged "Federated"
    (.obj [("member", a), ("placement", .str p.tag), ("all_equal", .bool e)])) =
      (decode style n a).bind fun m => some (.placed m p e) := by
  cases style <;> cases p <;> rfl

end Nodes

theorem decode_toJson (h : t.toJson.height ≤ n) : decode style n t.toJson = some t := by
  induction t generalizing n with
  | scalar k =>
    obtain ⟨n, rfl⟩ := Json.exists_of_height_le h
    cases k <;> rfl
  | tuple ts ih =>
    obtain ⟨n, rfl⟩ := Json.exists_of_height_le h
    rw [toJson, toJsons_eq] at h ⊢
    have hitem := Json.height_item (Json.height_content h)
    have hts : (ts.map toJson).mapM (decode style n) = some ts :=
      mapM_eq_some.mpr (List.forall₂_map_left_iff.mpr (List.forall₂_same.mpr fun t ht =>
        ih t ht (hitem _ (List.mem_map_of_mem ht))))
    rw [decode_tuple, hts, Option.bind_some]
  | seq t ih =>
    obtain ⟨n, rfl⟩ := Json.exists_of_height_le h
    rw [toJson, decode_seq, ih (Json.height_content h), Option.bind_some]
  | func p r ihp ihr =>
    obtain ⟨n, rfl⟩ := Json.exists_of_height_le h
    have hfield := Json.height_field (Json.height_content h)
    have hp := ihp (hfield ("parameter", _) (by simp))
    have hr := ihr (hfield ("result", _) (by simp))
    obtain ⟨tag, content, hcontent⟩ := p.toJson_tagged
    rw [hcontent] at hp
    rw [toJson, hcontent, decode_func, hr, Option.bind_some, hp, Option.bind_some]
  | thunk r ih =>
    obtain ⟨n, rfl⟩ := Json.exists_of_height_le h
    have hr := ih (Json.height_field (Json.height_content h) ("result", _) (by simp))
    rw [toJson, decode_thunk, hr, Option.bind_some]
  | placed m p e ih =>
    obtain ⟨n, rfl⟩ := Json.exists_of_height_le h
    have hm := ih (Json.height_field (Json.height_content h) ("member", _) (by simp))
    rw [toJson, decode_placed, hm, Option.bind_some]

theorem ofJson?_toJson : ofJson? style t.toJson = some t :=
  decode_toJson (Nat.le_refl _)

end Ty

namespace Expr

variable {e : Expr} {n : Nat} {style : Json.Style}

def hasExactNumber : Expr → Bool
  | .lit (.int v) _ => Whole.inRange v
  | .lit (.float _) _ => false
  | .select _ i _ => i < 18446744073709551616
  | _ => true

/-- No number in the expression is a fraction, and all fit 64 bits. -/
def Exact (e : Expr) : Prop :=
  ∀ e' ∈ e.subterms, e'.hasExactNumber = true

instance (e : Expr) : Decidable e.Exact :=
  inferInstanceAs (Decidable (∀ e' ∈ e.subterms, _))

theorem toJsons_eq (es : List Expr) : toJsons es = es.map toJson := by
  induction es with
  | nil => rfl
  | cons e es ih => rw [toJsons, ih, List.map_cons]

theorem localJsons_eq (ls : List (String × Expr)) :
    localJsons ls = ls.map fun l => .arr [.str l.1, l.2.toJson] := by
  induction ls with
  | nil => rfl
  | cons l ls ih => rw [localJsons, ih, List.map_cons]

theorem toJson_node (e : Expr) : ∃ kind content, e.toJson = nodeJson kind content e.ty := by
  cases e with
  | lambda x e t => cases x <;> exact ⟨_, _, rfl⟩
  | _ => exact ⟨_, _, rfl⟩

theorem Exact.own (h : e.Exact) : e.hasExactNumber = true :=
  h e e.mem_subterms_self

theorem Exact.children (h : e.Exact) : ∀ c ∈ e.children, c.Exact :=
  fun c hc e' he' => h e' (mem_subterms.mpr (.inr ⟨c, hc, he'⟩))

theorem exact_nodeJson {kind : String} {content : Json} {t : Ty} (h : content.Exact) :
    (nodeJson kind content t).Exact :=
  Json.exact_record h.tagged t.exact_toJson

theorem exact_toJson (h : e.Exact) : e.toJson.Exact := by
  induction e with
  | ref x t => exact exact_nodeJson .str
  | lit a t =>
    have hown := h.own
    cases a with
    | int v =>
      obtain ⟨hlow, hhigh⟩ := Whole.inRange_iff.mp hown
      exact exact_nodeJson (.tagged (.int hlow (by omega)))
    | float v => cases hown
    | bool b => exact exact_nodeJson (.tagged .bool)
  | tuple es t ih =>
    rw [toJson, toJsons_eq]
    exact exact_nodeJson (.arr (List.forall_mem_map.mpr fun e he => ih e he (h.children e he)))
  | select e i t ih =>
    have hown : i < 18446744073709551616 := by simpa [hasExactNumber] using h.own
    have he := ih (h.children e (by simp [children]))
    exact exact_nodeJson (Json.exact_record he (.int (by omega) (by omega)))
  | call f a t ihf iha =>
    have hf := ihf (h.children f (by simp [children]))
    have ha := iha (h.children a (by simp [children]))
    exact exact_nodeJson (Json.exact_record hf ha)
  | force f t ih =>
    exact exact_nodeJson (Json.exact_record (ih (h.children f (by simp [children]))) .null)
  | lambda x e t ih =>
    have he := ih (h.children e (by simp [children]))
    cases x with
    | none => exact exact_nodeJson (Json.exact_record .null he)
    | some x => exact exact_nodeJson (Json.exact_record .str he)
  | block ls r t ihl ihr =>
    have hr := ihr (h.children r (by simp [children]))
    have hls : ∀ l ∈ ls, (Json.arr [.str l.1, l.2.toJson]).Exact := by
      intro l hl
      have hmem : l.2 ∈ (block ls r t).children := List.mem_append_left _ (List.mem_map_of_mem hl)
      exact .arr (List.forall_mem_cons.mpr ⟨.str,
        List.forall_mem_singleton.mpr (ihl l hl (h.children _ hmem))⟩)
    rw [toJson, localJsons_eq]
    exact exact_nodeJson (Json.exact_record (.arr (List.forall_mem_map.mpr hls)) hr)
  | intrinsic uri t => exact exact_nodeJson (.obj (List.forall_mem_singleton.mpr .str))
  | builtin b t => exact exact_nodeJson .str

theorem height_node {kind : String} {content : Json} {t : Ty}
    (h : (nodeJson kind content t).height ≤ n + 1) :
    content.height ≤ n := by
  have hkind := Json.heightFields_le.mp (Nat.le_of_succ_le_succ h) ("kind", _) List.mem_cons_self
  obtain ⟨n, rfl⟩ := Json.exists_of_height_le hkind
  exact Nat.le_succ_of_le (Json.height_content hkind)

section Nodes

variable {t : Ty} {a b : Json}

theorem decode_ref {x : String} : decode style (n + 1) (nodeJson "Reference" (.str x) t) =
    (Ty.ofJson? style t.toJson).bind fun ty => some (.ref x ty) := rfl

theorem decode_lit : decode style (n + 1) (nodeJson "Literal" a t) =
    (Ty.ofJson? style t.toJson).bind fun ty => (Literal.ofJson? a).bind fun v => some (.lit v ty) :=
  rfl

theorem decode_tuple {js : List Json} :
    decode style (n + 1) (nodeJson "Struct" (.arr js) t) = (Ty.ofJson? style t.toJson).bind
    fun ty => (js.mapM (decode style n)).bind fun es => some (.tuple es ty) :=
  rfl

theorem decode_select {i : Nat} :
    decode style (n + 1) (nodeJson "Selection" (.obj [("source", a), ("index", .int i)]) t) =
      (Ty.ofJson? style t.toJson).bind fun ty =>
        (decode style n a).bind fun e => some (.select e i ty) := by
  cases style <;> rfl

theorem decode_call {kind : String} {u : Ty} : decode style (n + 1)
    (nodeJson "Call" (.obj [("function", a), ("argument", nodeJson kind b u)]) t) =
      (Ty.ofJson? style t.toJson).bind fun ty => (decode style n a).bind fun f =>
        (decode style n (nodeJson kind b u)).bind fun e => some (.call f e ty) := by
  cases style <;> rfl

theorem decode_force :
    decode style (n + 1) (nodeJson "Call" (.obj [("function", a), ("argument", .null)]) t) =
    (Ty.ofJson? style t.toJson).bind fun ty =>
    (decode style n a).bind fun f => some (.force f ty) := by
  cases style <;> rfl

theorem decode_delay :
    decode style (n + 1) (nodeJson "Lambda" (.obj [("parameter", .null), ("body", b)]) t) =
    (Ty.ofJson? style t.toJson).bind fun ty =>
    (decode style n b).bind fun e => some (.lambda none e ty) := by
  cases style <;> rfl

theorem decode_lambda {x : String} :
    decode style (n + 1) (nodeJson "Lambda" (.obj [("parameter", .str x), ("body", b)]) t) =
      (Ty.ofJson? style t.toJson).bind fun ty =>
        (decode style n b).bind fun e => some (.lambda (some x) e ty) := by
  cases style <;> rfl

theorem decode_block {js : List Json} :
    decode style (n + 1) (nodeJson "Block" (.obj [("locals", .arr js), ("result", b)]) t) =
      (Ty.ofJson? style t.toJson).bind fun ty =>
        (js.mapM (decodeLocal (decode style n))).bind fun ls =>
        (decode style n b).bind fun r => some (.block ls r ty) := by
  cases style <;> rfl

theorem decode_intrinsic {uri : String} :
    decode style (n + 1) (nodeJson "Intrinsic" (.obj [("uri", .str uri)]) t) =
    (Ty.ofJson? style t.toJson).bind fun ty => some (.intrinsic uri ty) := by
  cases style <;> rfl

theorem decode_builtin {op : Builtin} : decode style (n + 1) (nodeJson "Builtin" (.str op.tag) t) =
    (Ty.ofJson? style t.toJson).bind fun ty => some (.builtin op ty) := by
  cases style <;> cases op <;> rfl

end Nodes

theorem ofJson?_literal {a : Literal} {t : Ty} (h : (Expr.lit a t).hasExactNumber = true) :
    Literal.ofJson? a.toJson = some a := by
  cases a with
  | int v =>
    simpa [Literal.ofJson?, Literal.toJson, Json.tagged, Json.choice?, hasExactNumber] using h
  | float v => cases h
  | bool b => rfl

theorem decode_toJson (h : e.Exact) (hn : e.toJson.height ≤ n) :
    decode style n e.toJson = some e := by
  induction e generalizing n with
  | ref x t =>
    obtain ⟨n, rfl⟩ := Json.exists_of_height_le hn
    rw [toJson, decode_ref, Ty.ofJson?_toJson, Option.bind_some]
  | lit a t =>
    obtain ⟨n, rfl⟩ := Json.exists_of_height_le hn
    rw [toJson, decode_lit, Ty.ofJson?_toJson, Option.bind_some, ofJson?_literal h.own,
      Option.bind_some]
  | tuple es t ih =>
    obtain ⟨n, rfl⟩ := Json.exists_of_height_le hn
    rw [toJson, toJsons_eq] at hn ⊢
    have hitem := Json.height_item (height_node hn)
    have hes : (es.map toJson).mapM (decode style n) = some es :=
      mapM_eq_some.mpr (List.forall₂_map_left_iff.mpr (List.forall₂_same.mpr fun e he =>
        ih e he (h.children e he) (hitem _ (List.mem_map_of_mem he))))
    rw [decode_tuple, Ty.ofJson?_toJson, Option.bind_some, hes, Option.bind_some]
  | select e i t ih =>
    obtain ⟨n, rfl⟩ := Json.exists_of_height_le hn
    have hfield := Json.height_field (height_node hn)
    have he := ih (h.children e (by simp [children])) (hfield ("source", _) (by simp))
    rw [toJson, decode_select, Ty.ofJson?_toJson, Option.bind_some, he, Option.bind_some]
  | call f a t ihf iha =>
    obtain ⟨n, rfl⟩ := Json.exists_of_height_le hn
    have hfield := Json.height_field (height_node hn)
    have hf := ihf (h.children f (by simp [children])) (hfield ("function", _) (by simp))
    have ha := iha (h.children a (by simp [children])) (hfield ("argument", _) (by simp))
    obtain ⟨kind, content, hcontent⟩ := a.toJson_node
    rw [hcontent] at ha
    rw [toJson, hcontent, decode_call, Ty.ofJson?_toJson, Option.bind_some, hf, Option.bind_some,
      ha, Option.bind_some]
  | force f t ih =>
    obtain ⟨n, rfl⟩ := Json.exists_of_height_le hn
    have hf := ih (h.children f (by simp [children]))
      (Json.height_field (height_node hn) ("function", _) (by simp))
    rw [toJson, decode_force, Ty.ofJson?_toJson, Option.bind_some, hf, Option.bind_some]
  | lambda x e t ih =>
    obtain ⟨n, rfl⟩ := Json.exists_of_height_le hn
    cases x with
    | none =>
      have he := ih (h.children e (by simp [children]))
        (Json.height_field (height_node hn) ("body", _) (by simp))
      rw [toJson, decode_delay, Ty.ofJson?_toJson, Option.bind_some, he, Option.bind_some]
    | some x =>
      have he := ih (h.children e (by simp [children]))
        (Json.height_field (height_node hn) ("body", _) (by simp))
      rw [toJson, decode_lambda, Ty.ofJson?_toJson, Option.bind_some, he, Option.bind_some]
  | block ls r t ihl ihr =>
    obtain ⟨n, rfl⟩ := Json.exists_of_height_le hn
    rw [toJson, localJsons_eq] at hn ⊢
    have hfield := Json.height_field (height_node hn)
    have hr := ihr (h.children r (by simp [children])) (hfield ("result", _) (by simp))
    have hitem := Json.height_item (hfield ("locals", _) List.mem_cons_self)
    have hls : (ls.map fun l => Json.arr [.str l.1, l.2.toJson]).mapM
        (decodeLocal (decode style n)) = some ls := by
      refine mapM_eq_some.mpr (List.forall₂_map_left_iff.mpr (List.forall₂_same.mpr fun l hl => ?_))
      have hmem : l.2 ∈ (block ls r t).children := List.mem_append_left _ (List.mem_map_of_mem hl)
      have hl' := ihl l hl (h.children _ hmem)
        (Json.height_item (hitem _ (List.mem_map_of_mem hl)) _ (by simp))
      simp [decodeLocal, hl']
    rw [decode_block, Ty.ofJson?_toJson, Option.bind_some, hls, Option.bind_some, hr,
      Option.bind_some]
  | intrinsic uri t =>
    obtain ⟨n, rfl⟩ := Json.exists_of_height_le hn
    rw [toJson, decode_intrinsic, Ty.ofJson?_toJson, Option.bind_some]
  | builtin op t =>
    obtain ⟨n, rfl⟩ := Json.exists_of_height_le hn
    rw [toJson, decode_builtin, Ty.ofJson?_toJson, Option.bind_some]

end Expr

theorem Json.field?_of_mem {fields : List (String × Json)} {name : String} {j : Json}
    (hnames : (fields.map Prod.fst).Nodup) (h : (name, j) ∈ fields) :
    (Json.obj fields).field? name = some j := by
  have hfind : fields.reverse.find? (fun f => f.1 == name) = some (name, j) := by
    refine List.find?_eq_some_iff_append.mpr ⟨by simp, ?_⟩
    obtain ⟨as, bs, hsplit⟩ := List.append_of_mem (List.mem_reverse.mpr h)
    refine ⟨as, bs, hsplit, fun f hf => ?_⟩
    have hnodup : (fields.reverse.map Prod.fst).Nodup := by
      rwa [List.map_reverse, List.nodup_reverse]
    rw [hsplit, List.map_append, List.map_cons, List.nodup_append] at hnodup
    have hne := hnodup.2.2 f.1 (List.mem_map_of_mem hf) name List.mem_cons_self
    simpa using hne
  rw [Json.field?, hfind, Option.map_some]

namespace Slotted

variable {α β : Type} {s : Slotted α}

theorem toList_map (g : α → β) : (s.map g).toList = s.toList.map g := by
  cases s <;> rfl

theorem traverse_named {k : String → Option β} {g : α → β}
    (h : ∀ p ∈ s.named, k p.1 = some (g p.2)) :
    s.template.slots.traverse k = some (s.map g) := by
  cases s with
  | mapReduce s =>
    simp only [named, template, Template.slots, toList, MapReduce.toList, List.zip_cons_cons,
      List.forall_mem_cons] at h
    simp only [template, Template.slots, traverse, MapReduce.traverse, h]
    rfl
  | distributeAggregate s =>
    simp only [named, template, Template.slots, toList, DistributeAggregate.toList,
      List.zip_cons_cons, List.forall_mem_cons] at h
    simp only [template, Template.slots, traverse, DistributeAggregate.traverse, h]
    rfl
  | broadcast s =>
    simp only [named, template, Template.slots, toList, Broadcast.toList, List.zip_cons_cons,
      List.forall_mem_cons] at h
    simp only [template, Template.slots, traverse, Broadcast.traverse, h]
    rfl

end Slotted

namespace Form

variable {parts : Parts} {f : Form}

theorem parts_of_ofParts (h : (ofParts parts).result = .ok f) : f.parts = parts := by
  rcases ofParts_ok h with ⟨p, g, rfl, rfl, hg⟩ | ⟨p, g, rfl, rfl, hg⟩ | ⟨p, g, rfl, rfl, hg⟩
  · obtain ⟨_, _, _, _, _, _, _, _, _, _, hc⟩ := ofMapReduce_ok.mp hg
    change Slotted.mapReduce ⟨g.prepare.payload, g.work.payload, g.zero.payload,
      g.accumulate.payload, g.merge.payload, g.report.payload, g.bitwidth.payload,
      g.maxInput.payload, g.modulus.payload, g.update.payload⟩ = .mapReduce p
    rw [hc.prepare.payload, hc.work.payload, hc.zero.payload, hc.accumulate.payload,
      hc.merge.payload, hc.report.payload, hc.bitwidth.payload, hc.maxInput.payload,
      hc.modulus.payload, hc.update.payload]
  · obtain ⟨_, _, _, _, _, _, _, _, hc⟩ := ofDistributeAggregate_ok hg
    change Slotted.distributeAggregate ⟨g.serverPrepare.payload, g.broadcast.payload,
      g.clientWork.payload, g.aggregation.payload, g.serverResult.payload⟩ = .distributeAggregate p
    rw [hc.serverPrepare.payload, hc.broadcast.payload, hc.clientWork.payload,
      hc.aggregation.payload, hc.serverResult.payload]
  · obtain ⟨_, _, _, _, hc⟩ := ofBroadcast_ok.mp hg
    change Slotted.broadcast ⟨g.context.payload, g.processing.payload⟩ = .broadcast p
    rw [hc.context.payload, hc.processing.payload]

theorem exact_payload (h : ∀ e ∈ f.parts.toList, e.Exact) {p : String × Block} (hp : p ∈ f.named) :
    p.2.payload.Exact := by
  refine h p.2.payload ?_
  rw [parts, Slotted.toList_map]
  exact List.mem_map_of_mem (List.of_mem_zip hp).2

theorem exact_toJson (h : ∀ e ∈ f.parts.toList, e.Exact) : f.toJson.Exact :=
  .obj (List.forall_mem_cons.mpr ⟨.str,
    List.forall_mem_map.mpr fun _ hp => Expr.exact_toJson (exact_payload h hp)⟩)

theorem nodup_names (f : Form) : ((("form", Json.str f.template.tag) :: f.named.map fun p =>
    (p.1, p.2.payload.toJson)).map Prod.fst).Nodup := by
  have hnames : ((("form", Json.str f.template.tag) :: f.named.map fun p =>
      (p.1, p.2.payload.toJson)).map Prod.fst) = "form" :: f.template.slots.toList := by
    cases f <;> rfl
  rw [hnames]
  cases f.template <;> decide

theorem partsOfJson?_toJson (h : ∀ e ∈ f.parts.toList, e.Exact) :
    partsOfJson? f.toJson = some f.parts := by
  have htag : Template.ofTag? f.template.tag = some f.template := by cases f <;> rfl
  have hform : f.toJson.field? "form" = some (.str f.template.tag) :=
    Json.field?_of_mem f.nodup_names List.mem_cons_self
  have hslots : f.template.slots.traverse (fun slot => do
      Expr.ofJson? .listed (← f.toJson.part? f.template.slots.toList slot)) = some f.parts := by
    refine Slotted.traverse_named fun p hp => ?_
    have hpart : f.toJson.part? f.template.slots.toList p.1 = some p.2.payload.toJson :=
      Json.field?_of_mem f.nodup_names (List.mem_cons_of_mem _ (List.mem_map_of_mem hp))
    rw [hpart]
    exact Expr.decode_toJson (exact_payload h hp) (Nat.le_refl _)
  have hsplit : tagAndSlots? f.toJson = some (.str f.template.tag, f.toJson) := by
    change (f.toJson.field? "form").map (fun tag => (tag, f.toJson)) = _
    rw [hform, Option.map_some]
  rw [partsOfJson?, hsplit]
  simp only [Option.bind_eq_bind, Option.bind_some, Json.str?, htag]
  exact hslots

theorem ofText_canonicalText (hf : (ofParts parts).result = .ok f)
    (hparts : ∀ e ∈ parts.toList, e.Exact) :
    ofText f.canonicalText =
      if f.toJson.nesting ≤ maxDepth then .ok f else .error .undecodable := by
  obtain rfl := parts_of_ofParts hf
  have hread : Json.read? maxDepth f.canonicalText =
      if f.toJson.nesting ≤ maxDepth then some f.toJson else none :=
    Json.read?_compact (exact_toJson hparts) maxDepth
  have hload : ofJson f.toJson = .ok f := by
    rw [ofJson, partsOfJson?_toJson hparts]
    simp only [hf]
    rfl
  unfold ofText
  rw [hread]
  by_cases hle : f.toJson.nesting ≤ maxDepth
  · rw [if_pos hle, if_pos hle]
    exact hload
  · rw [if_neg hle, if_neg hle]

theorem eq_of_canonicalText {parts' : Parts} {g : Form} (hf : (ofParts parts).result = .ok f)
    (hg : (ofParts parts').result = .ok g) (hparts : ∀ e ∈ parts.toList, e.Exact)
    (hparts' : ∀ e ∈ parts'.toList, e.Exact) (h : f.canonicalText = g.canonicalText) : f = g := by
  obtain rfl := parts_of_ofParts hf
  obtain rfl := parts_of_ofParts hg
  have hread := Json.read?_compact (exact_toJson hparts) (max f.toJson.nesting g.toJson.nesting)
  have hread' := Json.read?_compact (exact_toJson hparts') (max f.toJson.nesting g.toJson.nesting)
  rw [if_pos (Nat.le_max_left _ _)] at hread
  rw [if_pos (Nat.le_max_right _ _)] at hread'
  have hjson : f.toJson = g.toJson := by
    change f.toJson.compact = g.toJson.compact at h
    rw [h, hread'] at hread
    exact (Option.some.inj hread).symm
  have hsame : f.parts = g.parts := by
    have hload := partsOfJson?_toJson hparts
    rw [hjson, partsOfJson?_toJson hparts'] at hload
    exact (Option.some.inj hload).symm
  rw [hsame, hg] at hf
  exact (Except.ok.inj hf).symm

/-- A form without fractions is read back from its text, unless the text nests too deep, and no
other such form has that text. -/
theorem ofText_iff (hf : (ofParts parts).result = .ok f) (hparts : ∀ e ∈ parts.toList, e.Exact) :
    (ofText f.canonicalText = .ok f ↔ f.toJson.nesting ≤ maxDepth) ∧
      ∀ parts' g, (ofParts parts').result = .ok g → (∀ e ∈ parts'.toList, e.Exact) →
        f.canonicalText = g.canonicalText → f = g := by
  refine ⟨?_, fun parts' g hg hparts' => eq_of_canonicalText hf hg hparts hparts'⟩
  rw [ofText_canonicalText hf hparts]
  by_cases hle : f.toJson.nesting ≤ maxDepth <;> simp [hle]

/-- Broadcast the state with a number, which is what every participant gives. -/
def shifting : Broadcast Expr where
  context := .mkLambda "s" .int32 (.mkTuple [.ref "s" .int32, .int (-3)])
  processing := .mkLambda "a" (.tuple [.tuple [.int32, .int32], .int32]) (.select (.select
    (.ref "a" (.tuple [.tuple [.int32, .int32], .int32])) 0 (.tuple [.int32, .int32])) 1 .int32)

theorem ofText_iff_shifting :
    ∃ f, (ofParts (.broadcast shifting)).result = .ok f ∧ ofText f.canonicalText = .ok f := by
  have hf : (ofParts (.broadcast shifting)).result = .ok (.broadcast {
      context := ⟨shifting.context.ty, shifting.context, .unplaced⟩
      processing := ⟨shifting.processing.ty, shifting.processing, .unplaced⟩ }) := rfl
  have hparts : ∀ e ∈ (Slotted.broadcast shifting).toList, e.Exact := by decide
  exact ⟨_, hf, (ofText_iff hf hparts).1.mpr (by decide)⟩

def layered : Nat → Ty
  | 0 => .int32
  | n + 1 => .seq (layered n)

theorem nesting_layered (n : Nat) : (layered n).toJson.nesting = n + 1 := by
  induction n with
  | zero => rfl
  | succ n ih => simp [layered, Ty.toJson, Json.tagged, Json.nesting, Json.nestingFields, ih]

/-- Broadcast a state of many layers, which the participants ignore. -/
def layeredState (n : Nat) : Broadcast Expr where
  context := .mkLambda "s" (layered n) (.ref "s" (layered n))
  processing := .mkLambda "a" (.tuple [layered n, .int32])
    (.select (.ref "a" (.tuple [layered n, .int32])) 1 .int32)

def layeredForm (n : Nat) : Form :=
  .broadcast {
    context := ⟨(layeredState n).context.ty, (layeredState n).context, .unplaced⟩
    processing := ⟨(layeredState n).processing.ty, (layeredState n).processing, .unplaced⟩ }

theorem lt_nesting_layeredForm (n : Nat) : n < (layeredForm n).toJson.nesting := by
  have hty := nesting_layered n
  simp [toJson, layeredForm, layeredState, Slotted.named, Slotted.template, Template.slots,
    Slotted.toList, Broadcast.toList, Expr.mkLambda, Expr.toJson, Expr.nodeJson, Json.tagged,
    Json.nesting, Json.nestingFields, hty, Expr.ty]
  omega

/-- The text of a form can nest deeper than what is read. -/
theorem ofText_layered : (∀ e ∈ (Slotted.broadcast (layeredState 130)).toList, e.Exact) ∧
    (ofParts (.broadcast (layeredState 130))).result = .ok (layeredForm 130) ∧
      ofText (layeredForm 130).canonicalText = .error .undecodable := by
  have hf : (ofParts (.broadcast (layeredState 130))).result = .ok (layeredForm 130) := rfl
  have hparts : ∀ e ∈ (Slotted.broadcast (layeredState 130)).toList, e.Exact := by decide
  have hdeep : ¬ (layeredForm 130).toJson.nesting ≤ maxDepth :=
    Nat.not_le_of_lt (Nat.lt_trans (by decide) (lt_nesting_layeredForm 130))
  refine ⟨hparts, hf, ?_⟩
  rw [ofText_canonicalText hf hparts, if_neg hdeep]

end Form

end TwoTier
