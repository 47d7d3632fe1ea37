import Graft.Proofs.Spelling
import Graft.Tree.Decode

/-! # Reading spellings

Every spelling of a tree is read as that tree, whichever choices it makes at each place
(`Tree.read_spellings`). A reader looks at the fields of a record one after the other, and so do the
proofs (`AllHeld`). Readers of trees carry a bound on the nesting of the data; a part of a value is
nested less deeply than the value, so what the bound allows for a tree it allows for the trees inside.
-/

set_option autoImplicit false

namespace Graft

/-! ## Numbers -/

namespace Binary64

theorem hexValue?_hexDigit {d : Nat} (h : d < 16) : hexValue? (hexDigit d) = some d := by
  revert d
  decide

/-- Reading the first digits of a pattern gives its leading bits. -/
theorem foldlM_hexDigits (n k : Nat) (hk : k ≤ 16) (hn : n < pow2 64) :
    ((List.range k).map fun i => hexDigit (n / pow2 (60 - 4 * i) % 16)).foldlM
      (fun n c => (hexValue? c).map (n * 16 + ·)) 0 = some (n / pow2 (64 - 4 * k)) := by
  induction k with
  | zero =>
    have hzero : n / pow2 64 = 0 := Nat.div_eq_of_lt hn
    rw [Nat.mul_zero, Nat.sub_zero, hzero]
    rfl
  | succ k ih =>
    have hpow : pow2 (64 - 4 * k) = pow2 (60 - 4 * k) * 16 := by
      have hexp : 64 - 4 * k = 60 - 4 * k + 4 := by omega
      rw [hexp]
      exact Nat.pow_add 2 (60 - 4 * k) 4
    have hstep : n / pow2 (64 - 4 * k) * 16 + n / pow2 (60 - 4 * k) % 16 = n / pow2 (60 - 4 * k) := by
      rw [hpow, ← Nat.div_div_eq_div_mul]
      omega
    have hlast : 64 - 4 * (k + 1) = 60 - 4 * k := by omega
    rw [List.range_succ, List.map_append, List.foldlM_append, ih (Nat.le_of_succ_le hk), hlast]
    simp [hexValue?_hexDigit (Nat.mod_lt _ (by decide : 0 < 16)), hstep]

theorem ofHex?_hex (x : Binary64) : ofHex? x.hex = some x := by
  have hdigits := foldlM_hexDigits x.bits.toNat 16 (Nat.le_refl 16) x.bits.toNat_lt
  have hone : pow2 (64 - 4 * 16) = 1 := rfl
  rw [hone, Nat.div_one] at hdigits
  simp [ofHex?, hex, hdigits]

end Binary64

theorem Json.int64?_int (v : Int64) : (Json.int v.toInt).int64? = some v := by
  have hlow : -(pow2 63 : Int) ≤ v.toInt := v.le_toInt
  have hhigh : v.toInt < pow2 63 := v.toInt_lt
  rw [Json.int, int64?, if_pos ⟨hlow, hhigh⟩, Int64.ofInt_toInt]

theorem Json.uint64?_nat (v : UInt64) : (Json.nat v.toNat).uint64? = some v := by
  have hhigh : (v.toNat : Int) < pow2 64 := Int.ofNat_lt.mpr v.toNat_lt
  rw [Json.nat, uint64?, if_pos ⟨Int.natCast_nonneg _, hhigh⟩, Int.toNat_natCast, UInt64.ofNat_toNat]

/-! ## Nesting -/

namespace Json

theorem depthItems_eq (items : List Json) : depthItems items = (items.map depth).foldr max 0 := by
  induction items with
  | nil => rfl
  | cons item items ih => rw [depthItems, ih, List.map_cons, List.foldr_cons]

theorem depthFields_eq (fields : List (Option String × Json)) :
    depthFields fields = (fields.map (·.2.depth)).foldr max 0 := by
  induction fields with
  | nil => rfl
  | cons field fields ih => rw [depthFields, ih, List.map_cons, List.foldr_cons]

theorem depth_lt_of_mem_items {j : Json} {items : List Json} (h : j ∈ items) :
    j.depth < (Json.arr items).depth := by
  rw [depth, depthItems_eq]
  exact Nat.lt_succ_of_le (le_foldr_max 0 (List.mem_map_of_mem h))

theorem depth_lt_of_mem_fields {key : Option String} {j : Json}
    {fields : List (Option String × Json)} (h : (key, j) ∈ fields) :
    j.depth < (Json.obj fields).depth := by
  rw [depth, depthFields_eq]
  exact Nat.lt_succ_of_le (le_foldr_max 0 (List.mem_map_of_mem (f := (·.2.depth)) h))

/-! ## Fields -/

theorem lookup_eq_getLast? (name : String) (fields : List (Option String × Json)) :
    lookup name fields = (valuesOf name fields).getLast? := by
  induction fields with
  | nil => rfl
  | cons field fields ih =>
    obtain ⟨key, value⟩ := field
    rw [lookup, ih]
    by_cases hkey : key = some name
    · have hcons : valuesOf name ((key, value) :: fields) = value :: valuesOf name fields := by
        simp [valuesOf, hkey]
      rw [hcons, List.getLast?_cons]
      cases (valuesOf name fields).getLast? <;> simp [hkey]
    · have hcons : valuesOf name ((key, value) :: fields) = valuesOf name fields := by
        simp [valuesOf, hkey]
      rw [hcons]
      cases (valuesOf name fields).getLast? <;> simp [hkey]

theorem mem_of_mem_valuesOf {name : String} {j : Json} {fields : List (Option String × Json)}
    (h : j ∈ valuesOf name fields) : ∃ key, (key, j) ∈ fields := by
  obtain ⟨⟨key, value⟩, hfield, rfl⟩ := List.mem_map.mp h
  exact ⟨key, List.mem_of_mem_filter hfield⟩

end Json

/-- A content admits what is found in a field, at a bounded depth. -/
def Content.Holds (n : Nat) (c : Content) (value : Option Json) : Prop :=
  c.Admits value ∧ ∀ j ∈ value, j.depth < n

theorem fields?_of_mem_objects {names : List String} {contents : List Content} {j : Json} {n : Nat}
    (hj : j ∈ objects names contents) (hn : j.depth ≤ n) :
    ∃ held, j.fields? names = some held ∧ List.Forall₂ (Content.Holds n) contents held := by
  obtain ⟨fields, rfl, hfields⟩ := hj
  refine ⟨_, rfl, ?_⟩
  induction hfields with
  | nil => exact .nil
  | @cons name c names contents hhere _ ih =>
    obtain ⟨value, hadmits, hvalue⟩ := hhere
    have hlookup : Json.lookup name fields = value := by
      rw [Json.lookup_eq_getLast?, hvalue]
      cases value <;> rfl
    rw [List.map_cons, hlookup]
    refine .cons ⟨hadmits, fun j hj => ?_⟩ ih
    have hmem : j ∈ Json.valuesOf name fields := by rwa [hvalue, Option.mem_toList]
    obtain ⟨key, hmem⟩ := Json.mem_of_mem_valuesOf hmem
    exact Nat.lt_of_lt_of_le (Json.depth_lt_of_mem_fields hmem) hn

theorem record?_of_mem_records {names : List String} {contents : List Content} {j : Json} {n : Nat}
    (hlength : names.length = contents.length) (hj : j ∈ records names contents) (hn : j.depth ≤ n) :
    ∃ held, j.record? names = some held ∧ List.Forall₂ (Content.Holds n) contents held := by
  obtain hj | ⟨items, rfl, hitems⟩ := hj
  · obtain ⟨fields, rfl, hfields⟩ := hj
    exact fields?_of_mem_objects ⟨fields, rfl, hfields⟩ hn
  · have hread : (Json.arr items).record? names = some (items.map some) :=
      if_pos (hitems.length_eq.symm.trans hlength.symm)
    refine ⟨_, hread, ?_⟩
    have hdepth : ∀ item ∈ items, item.depth < n := fun item hitem =>
      Nat.lt_of_lt_of_le (Json.depth_lt_of_mem_items hitem) hn
    clear hread hn hlength
    induction hitems with
    | nil => exact .nil
    | cons hhere _ ih =>
      obtain ⟨hitem, hrest⟩ := List.forall_mem_cons.mp hdepth
      refine .cons ⟨hhere, fun j hj => ?_⟩ (ih hrest)
      cases hj
      exact hitem

/-! ## Readers -/

/-- A reader gives the value for all its spellings within a depth. -/
def Reads (n : Nat) {α : Type} (item : Json → Option α) (spellings : Set Json) (a : α) : Prop :=
  ∀ j ∈ spellings, j.depth < n → item j = some a

namespace Reads
variable {n : Nat} {α β : Type} {item : Json → Option α} {s : Set Json} {a : α}

theorem value {j : Json} (h : item j = some a) : Reads n item {j} a := by
  rintro _ rfl _
  exact h

theorem text (t : String) : Reads n Json.text? {.text t} t := value rfl

theorem bool (b : Bool) : Reads n Json.bool? {.bool b} b := value rfl

theorem int (v : Int64) : Reads n Json.int64? {.int v.toInt} v := value (Json.int64?_int v)

theorem nat (v : UInt64) : Reads n Json.uint64? {.nat v.toNat} v := value (Json.uint64?_nat v)

theorem float (x : Binary64) : Reads n Binary64.ofJson? {.text x.hex} x := value x.ofHex?_hex

theorem map (f : α → β) (h : Reads n item s a) : Reads n (fun j => (item j).map f) s (f a) := by
  intro j hj hn
  simp only [h j hj hn, Option.map_some]

theorem nullable {o : Option α} {spell : α → Set Json} (hnull : item .null = none)
    (h : ∀ a ∈ o, Reads n item (spell a) a) :
    Reads n (Json.nullable? item) (nullables (o.map spell)) o := by
  intro j hj hn
  cases o with
  | none =>
    obtain rfl := hj
    rfl
  | some a =>
    have hitem := h a rfl j hj hn
    have hpresent : j ≠ .null := by
      rintro rfl
      rw [hnull] at hitem
      contradiction
    rw [Json.nullable?, hitem, Option.map_some]
    exact hpresent

theorem list {as : List α} {spell : α → Set Json} (h : ∀ a ∈ as, Reads n item (spell a) a) :
    Reads n (Json.list? item) (lists (as.map spell)) as := by
  rintro _ ⟨items, rfl, hitems⟩ hn
  have hdepth : ∀ j ∈ items, j.depth < n := fun j hj =>
    Nat.lt_trans (Json.depth_lt_of_mem_items hj) hn
  rw [Json.list?]
  clear hn
  induction as generalizing items with
  | nil =>
    cases hitems
    rfl
  | cons a as ih =>
    obtain ⟨ha, has⟩ := List.forall_mem_cons.mp h
    cases hitems with
    | @cons _ j _ items hj hitems =>
      obtain ⟨hjn, hitemsn⟩ := List.forall_mem_cons.mp hdepth
      rw [List.mapM_cons, ha j hj hjn, ih has items hitems hitemsn]
      rfl

theorem texts (ts : List String) : Reads n (Json.list? Json.text?) (texts ts) ts :=
  list fun t _ => text t

theorem bareTag (label : String) : Reads n Json.bareTag? (bareTags label) label := by
  rintro j (rfl | rfl) _ <;> rfl

theorem bareTag_bind {ofLabel? : String → Option α} {label : String} (h : ofLabel? label = some a) :
    Reads n (fun j => j.bareTag?.bind ofLabel?) (bareTags label) a := by
  intro j hj hn
  simp only [bareTag label j hj hn, Option.bind_some, h]

theorem tagged {label : String} {whole : Json → Option β} {b : β} (h : Reads n item s a)
    (hwhole : ∀ j, item j = some a → whole (.obj [(some label, j)]) = some b) :
    Reads n whole (tagged label s) b := by
  rintro _ ⟨j, hj, rfl⟩ hn
  exact hwhole j (h j hj (Nat.lt_trans (Json.depth_lt_of_mem_fields (List.mem_singleton_self _)) hn))

end Reads

/-! ## Fields in turn -/

/-- What holds of every list of values that the contents admit. -/
def AllHeld (n : Nat) (contents : List Content) (holds : List (Option Json) → Prop) : Prop :=
  ∀ held, List.Forall₂ (Content.Holds n) contents held → holds held

namespace AllHeld
variable {n : Nat} {contents : List Content} {holds : List (Option Json) → Prop} {α : Type}
  {item : Json → Option α}

theorem nil (h : holds []) : AllHeld n [] holds := by
  rintro _ ⟨⟩
  exact h

/-- A field that is always there has a value, and the reader reads it. -/
theorem always {s : Set Json} {a : α} (hread : Reads n item s a)
    (h : ∀ j, item j = some a → AllHeld n contents fun held => holds (some j :: held)) :
    AllHeld n (.always s :: contents) holds := by
  rintro _ (_ | ⟨⟨hadmits, hdepth⟩, hrest⟩)
  next o held =>
    cases o with
    | none => contradiction
    | some j => exact h j (hread j hadmits (hdepth j rfl)) held hrest

/-- A field that may be empty may be missing. -/
theorem optional {o : Option α} {spell : α → Set Json} (hnull : item .null = none)
    (hread : ∀ a ∈ o, Reads n item (spell a) a)
    (h : ∀ value, Json.optional? item value = some o →
      AllHeld n contents fun held => holds (value :: held)) :
    AllHeld n (.optional (o.map spell) :: contents) holds := by
  rintro _ (_ | ⟨⟨hadmits, hdepth⟩, hrest⟩)
  next value held =>
    refine h value ?_ held hrest
    cases value with
    | some j => exact Reads.nullable hnull hread j hadmits (hdepth j rfl)
    | none =>
      have hnone : o.map spell = none := hadmits
      rw [Option.map_eq_none_iff.mp hnone]
      rfl

end AllHeld

namespace Reads
variable {n : Nat} {names : List String} {contents : List Content} {α : Type}
  {item : Json → Option α} {a : α}

theorem object (h : ∀ j, AllHeld n contents fun held => j.fields? names = some held → item j = some a) :
    Reads n item (objects names contents) a := by
  intro j hj hn
  obtain ⟨held, hread, hheld⟩ := fields?_of_mem_objects hj (Nat.le_of_lt hn)
  exact h j held hheld hread

theorem record (hlength : names.length = contents.length)
    (h : ∀ j, AllHeld n contents fun held => j.record? names = some held → item j = some a) :
    Reads n item (records names contents) a := by
  intro j hj hn
  obtain ⟨held, hread, hheld⟩ := record?_of_mem_records hlength hj (Nat.le_of_lt hn)
  exact h j held hheld hread

end Reads

/-! ## Parts -/

section
variable {n : Nat}

theorem Span.reads (s : Span) : Reads n Span.ofJson? s.spellings s := by
  refine .record rfl fun j => .always (.nat _) fun a ha => .always (.nat _) fun b hb =>
    .always (.nat _) fun c hc => .always (.nat _) fun d hd => .nil fun hj => ?_
  simp [Span.ofJson?, hj, ha, hb, hc, hd]

theorem Attributes.reads (a : Attributes) : Reads n Attributes.ofJson? a.spellings a := by
  refine .record rfl fun j => .optional rfl (fun s _ => s.reads) fun span hspan =>
    .always (.texts _) fun comments hcomments => .nil fun hj => ?_
  simp [Attributes.ofJson?, hj, hspan, hcomments]

theorem Name.reads (x : Name) : Reads n Name.ofJson? x.spellings x := by
  refine .record rfl fun j => .always (.texts _) fun parts hparts =>
    .always (.bool _) fun qualified hqualified => .nil fun hj => ?_
  simp [Name.ofJson?, hj, hparts, hqualified]

theorem Capture.reads (c : Capture) : Reads n Capture.ofJson? c.spellings c := by
  refine .record rfl fun j => .always (.text _) fun name hname =>
    .always (.bool _) fun byRef hbyRef => .nil fun hj => ?_
  simp [Capture.ofJson?, hj, hname, hbyRef]

theorem BinaryOp.reads (op : BinaryOp) : Reads n BinaryOp.ofJson? (bareTags op.label) op :=
  .bareTag_bind op.ofLabel?_label

theorem UnaryOp.reads (op : UnaryOp) : Reads n UnaryOp.ofJson? (bareTags op.label) op :=
  .bareTag_bind op.ofLabel?_label

theorem Visibility.reads (v : Visibility) : Reads n Visibility.ofJson? (bareTags v.label) v :=
  .bareTag_bind v.ofLabel?_label

theorem Literal.reads (l : Literal) : Reads n Literal.ofJson? l.spellings l := by
  cases l with
  | int value =>
    refine .tagged (.int value) fun j hj => ?_
    simp [Literal.ofJson?, Json.tagged?, hj]
  | float value =>
    refine .tagged (.float value) fun j hj => ?_
    simp [Literal.ofJson?, Json.tagged?, hj]
  | str text =>
    refine .tagged (.text text) fun j hj => ?_
    simp [Literal.ofJson?, Json.tagged?, hj]
  | bool value =>
    refine .tagged (.bool value) fun j hj => ?_
    simp [Literal.ofJson?, Json.tagged?, hj]
  | null => rintro j (rfl | rfl) _ <;> simp [Literal.ofJson?, Json.tagged?, Json.text]

variable {α : Type} {child : Json → Option α} {spell : α → Set Json}

theorem Reference.reads (r : Reference α) (h : ∀ c ∈ r.children, Reads n child (spell c) c) :
    Reads n (Reference.ofJson? child) (r.map spell).spellings r := by
  cases r with
  | named name =>
    refine .tagged name.reads fun j hj => ?_
    simp [Reference.ofJson?, Json.tagged?, hj]
  | computed c =>
    refine .tagged (h c (List.mem_singleton_self c)) fun j hj => ?_
    simp [Reference.ofJson?, Json.tagged?, hj]

theorem Member.reads (m : Member α) (h : ∀ c ∈ m.children, Reads n child (spell c) c) :
    Reads n (Member.ofJson? child) (m.map spell).spellings m := by
  cases m with
  | named text =>
    refine .tagged (.text text) fun j hj => ?_
    simp [Member.ofJson?, Json.tagged?, hj]
  | computed c =>
    refine .tagged (h c (List.mem_singleton_self c)) fun j hj => ?_
    simp [Member.ofJson?, Json.tagged?, hj]

theorem Arg.reads (a : Arg α) (h : Reads n child (spell a.value) a.value) :
    Reads n (Arg.ofJson? child) (a.map spell).spellings a := by
  refine .record rfl fun j => .always h fun value hvalue => .always (.bool _) fun byRef hbyRef =>
    .always (.bool _) fun unpack hunpack => .nil fun hj => ?_
  simp [Arg.ofJson?, hj, hvalue, hbyRef, hunpack, Arg.map]

theorem Param.reads (p : Param α) (hnull : child .null = none)
    (h : ∀ c ∈ p.default, Reads n child (spell c) c) :
    Reads n (Param.ofJson? child) (p.map spell).spellings p := by
  refine .record rfl fun j => .always (.text _) fun name hname =>
    .optional hnull h fun default hdefault => .always (.bool _) fun byRef hbyRef =>
    .always (.bool _) fun variadic hvariadic => .nil fun hj => ?_
  simp [Param.ofJson?, hj, hname, hdefault, hbyRef, hvariadic, Param.map]

theorem Arg.reads_list (args : List (Arg α)) (h : ∀ c ∈ Arg.children args, Reads n child (spell c) c) :
    Reads n (Json.list? (Arg.ofJson? child)) (lists ((args.map (·.map spell)).map Arg.spellings))
      args := by
  rw [List.map_map]
  exact .list fun a ha => a.reads (h a.value (List.mem_map_of_mem ha))

theorem Param.reads_list (params : List (Param α)) (hnull : child .null = none)
    (h : ∀ c ∈ Param.children params, Reads n child (spell c) c) :
    Reads n (Json.list? (Param.ofJson? child)) (lists ((params.map (·.map spell)).map Param.spellings))
      params := by
  rw [List.map_map]
  refine .list fun p hp => p.reads hnull fun c hc => h c ?_
  exact List.mem_flatMap.mpr ⟨p, hp, Option.mem_toList.mpr hc⟩

/-! ## Forms -/

theorem Form.reads_content (form : Form α) (hnull : child .null = none)
    (h : ∀ c ∈ form.children, Reads n child (spell c) c) :
    Reads n (Form.ofContent? child form.kind) (form.map spell).contents form := by
  cases form with
  | literal value => exact value.reads.map Form.literal
  | var name => exact (Reads.text name).map Form.var
  | constant name => exact name.reads.map Form.constant
  | array items => exact (Reads.list h).map Form.array
  | binary op left right =>
    refine .object fun j => .always op.reads fun x hx => .always (h left (by simp [children])) fun y hy =>
      .always (h right (by simp [children])) fun z hz => .nil fun hj => ?_
    simp [kind, ofContent?, hj, hx, hy, hz]
  | unary op operand =>
    refine .object fun j => .always op.reads fun x hx =>
      .always (h operand (by simp [children])) fun y hy => .nil fun hj => ?_
    simp [kind, ofContent?, hj, hx, hy]
  | assign target value =>
    refine .object fun j => .always (h target (by simp [children])) fun x hx =>
      .always (h value (by simp [children])) fun y hy => .nil fun hj => ?_
    simp [kind, ofContent?, hj, hx, hy]
  | call callee args =>
    have hcallee := callee.reads fun c hc => h c (by simp [children, hc])
    have hargs := Arg.reads_list args fun c hc => h c (by simp [children, hc])
    refine .object fun j => .always hcallee fun x hx => .always hargs fun y hy => .nil fun hj => ?_
    simp [kind, ofContent?, hj, hx, hy]
  | property object name =>
    have hname := name.reads fun c hc => h c (by simp [children, hc])
    refine .object fun j => .always (h object (by simp [children])) fun x hx =>
      .always hname fun y hy => .nil fun hj => ?_
    simp [kind, ofContent?, hj, hx, hy]
  | methodCall object name args =>
    have hname := name.reads fun c hc => h c (by simp [children, hc])
    have hargs := Arg.reads_list args fun c hc => h c (by simp [children, hc])
    refine .object fun j => .always (h object (by simp [children])) fun x hx =>
      .always hname fun y hy => .always hargs fun z hz => .nil fun hj => ?_
    simp [kind, ofContent?, hj, hx, hy, hz]
  | staticProperty owner name =>
    have howner := owner.reads fun c hc => h c (by simp [children, hc])
    have hname := name.reads fun c hc => h c (by simp [children, hc])
    refine .object fun j => .always howner fun x hx => .always hname fun y hy => .nil fun hj => ?_
    simp [kind, ofContent?, hj, hx, hy]
  | staticCall owner name args =>
    have howner := owner.reads fun c hc => h c (by simp [children, hc])
    have hname := name.reads fun c hc => h c (by simp [children, hc])
    have hargs := Arg.reads_list args fun c hc => h c (by simp [children, hc])
    refine .object fun j => .always howner fun x hx => .always hname fun y hy =>
      .always hargs fun z hz => .nil fun hj => ?_
    simp [kind, ofContent?, hj, hx, hy, hz]
  | classConstant owner name =>
    have howner := owner.reads fun c hc => h c (by simp [children, hc])
    have hname := name.reads fun c hc => h c (by simp [children, hc])
    refine .object fun j => .always howner fun x hx => .always hname fun y hy => .nil fun hj => ?_
    simp [kind, ofContent?, hj, hx, hy]
  | construct owner args =>
    have howner := owner.reads fun c hc => h c (by simp [children, hc])
    have hargs := Arg.reads_list args fun c hc => h c (by simp [children, hc])
    refine .object fun j => .always howner fun x hx => .always hargs fun y hy => .nil fun hj => ?_
    simp [kind, ofContent?, hj, hx, hy]
  | closure params captures isStatic body =>
    have hparams := Param.reads_list params hnull fun c hc => h c (by simp [children, hc])
    have hbody := Reads.list fun c (hc : c ∈ body) => h c (by simp [children, hc])
    refine .object fun j => .always hparams fun x hx => .always (.list fun c _ => c.reads) fun y hy =>
      .always (.bool isStatic) fun z hz => .always hbody fun w hw => .nil fun hj => ?_
    simp [kind, ofContent?, hj, hx, hy, hz, hw]
  | arrow params body =>
    have hparams := Param.reads_list params hnull fun c hc => h c (by simp [children, hc])
    refine .object fun j => .always hparams fun x hx =>
      .always (h body (by simp [children])) fun y hy => .nil fun hj => ?_
    simp [kind, ofContent?, hj, hx, hy]
  | expression expr => exact (h expr (by simp [children])).map Form.expression
  | ret value =>
    exact (Reads.nullable hnull fun c hc => h c (Option.mem_toList.mpr hc)).map Form.ret
  | echo values => exact (Reads.list h).map Form.echo
  | branch condition yes no =>
    have hyes := Reads.list fun c (hc : c ∈ yes) => h c (by simp [children, hc])
    have hno : ∀ cs ∈ no, Reads n (Json.list? child) (lists (cs.map spell)) cs := by
      intro cs hcs
      exact .list fun c hc => h c (by simp [children, Option.mem_def.mp hcs, hc])
    rw [map, contents, Option.map_map]
    refine .object fun j => .always (h condition (by simp [children])) fun x hx =>
      .always hyes fun y hy => .optional rfl hno fun z hz => .nil fun hj => ?_
    simp [kind, ofContent?, hj, hx, hy, hz]
  | loop condition body =>
    have hbody := Reads.list fun c (hc : c ∈ body) => h c (by simp [children, hc])
    refine .object fun j => .always (h condition (by simp [children])) fun x hx =>
      .always hbody fun y hy => .nil fun hj => ?_
    simp [kind, ofContent?, hj, hx, hy]
  | block statements => exact (Reads.list h).map Form.block
  | function name params body =>
    have hparams := Param.reads_list params hnull fun c hc => h c (by simp [children, hc])
    have hbody := Reads.list fun c (hc : c ∈ body) => h c (by simp [children, hc])
    refine .object fun j => .always (.text name) fun x hx => .always hparams fun y hy =>
      .always hbody fun z hz => .nil fun hj => ?_
    simp [kind, ofContent?, hj, hx, hy, hz]
  | classDecl name parent members =>
    refine .object fun j => .always (.text name) fun x hx =>
      .optional rfl (fun p _ => p.reads) fun y hy => .always (.list h) fun z hz => .nil fun hj => ?_
    simp [kind, ofContent?, hj, hx, hy, hz]
  | method name visibility isStatic params body =>
    have hparams := Param.reads_list params hnull fun c hc => h c (by simp [children, hc])
    have hbody := Reads.list fun c (hc : c ∈ body) => h c (by simp [children, hc])
    refine .object fun j => .always (.text name) fun x hx => .always visibility.reads fun y hy =>
      .always (.bool isStatic) fun z hz => .always hparams fun w hw =>
      .always hbody fun v hv => .nil fun hj => ?_
    simp [kind, ofContent?, hj, hx, hy, hz, hw, hv]
  | propertyDecl name visibility isStatic default =>
    have hdefault : ∀ c ∈ default, Reads n child (spell c) c :=
      fun c hc => h c (Option.mem_toList.mpr hc)
    refine .object fun j => .always (.text name) fun x hx => .always visibility.reads fun y hy =>
      .always (.bool isStatic) fun z hz => .optional hnull hdefault fun w hw => .nil fun hj => ?_
    simp [kind, ofContent?, hj, hx, hy, hz, hw]
  | constantDecl name visibility value =>
    refine .object fun j => .always (.text name) fun x hx => .always visibility.reads fun y hy =>
      .always (h value (by simp [children])) fun z hz => .nil fun hj => ?_
    simp [kind, ofContent?, hj, hx, hy, hz]

theorem Form.reads (form : Form α) (hnull : child .null = none)
    (h : ∀ c ∈ form.children, Reads n child (spell c) c) :
    Reads n (Form.ofJson? child) (form.map spell).spellings form := by
  rw [spellings, kind_map]
  refine .tagged (form.reads_content hnull h) fun j hj => ?_
  simp [ofJson?, Kind.ofLabel?_label, hj]

end

/-! ## Trees -/

theorem Tree.decode?_null (n : Nat) : decode? n .null = none := by
  cases n <;> rfl

theorem Tree.parts?_of_record {j form : Json} {attrs : Option Json}
    (h : j.record? ["kind", "attrs"] = some [some form, attrs]) : parts? j = some (form, attrs) := by
  have hlonger : ∀ form, j ≠ .arr [form] := by
    rintro form rfl
    contradiction
  rw [parts?, h]
  exact hlonger

/-- Reading goes on with trees that lie deeper in the data, so the bound may sink by one. -/
theorem Tree.reads (t : Tree) (n : Nat) : Reads n (decode? n) t.spellings t := by
  induction t using Tree.inductionOn generalizing n with
  | mk form attrs ih =>
    cases n with
    | zero => exact fun j _ hn => absurd hn (Nat.not_lt_zero _)
    | succ n =>
      have hform := form.reads (decode?_null n) fun c hc => ih c hc n
      intro j hj hn
      rw [spellings_mk] at hj
      have hbound : j.depth ≤ n := Nat.le_of_lt_succ hn
      obtain hj | ⟨rfl, kind, hkind, rfl⟩ := hj
      · have hall : AllHeld n [.always (form.map spellings).spellings, ⟨attrs.spellings, attrs = .empty⟩]
            fun held => j.record? ["kind", "attrs"] = some held →
              decode? (n + 1) j = some ⟨form, attrs⟩ := by
          refine .always hform fun kind hkind => ?_
          rintro _ (_ | ⟨⟨hadmits, hdepth⟩, ⟨⟩⟩) hread
          next value =>
            have hparts := parts?_of_record hread
            cases value with
            | none =>
              have hempty : attrs = .empty := hadmits
              simp [decode?, hparts, hkind, hempty]
            | some data =>
              have hattrs := attrs.reads data hadmits (hdepth data rfl)
              simp [decode?, hparts, hkind, hattrs]
        obtain ⟨held, hread, hheld⟩ := record?_of_mem_records rfl hj hbound
        exact hall held hheld hread
      · have hdepth := Nat.lt_of_lt_of_le (Json.depth_lt_of_mem_items (List.mem_singleton_self kind)) hbound
        simp [decode?, parts?, hform kind hkind hdepth]

/-- Every spelling of a tree is read as that tree; what is written for a tree is one of its spellings, so
it is read back. -/
theorem Tree.read_spellings (t : Tree) :
    (∀ j ∈ t.spellings, ofJson? j = some t) ∧ t.toJson ∈ t.spellings ∧ ofJson? t.toJson = some t := by
  have hread : ∀ j ∈ t.spellings, ofJson? j = some t :=
    fun j hj => t.reads (j.depth + 1) j hj (Nat.lt_succ_self _)
  exact ⟨hread, t.toJson_mem, hread _ t.toJson_mem⟩

/-- A sum of two nulls: an array without attributes, the fields out of order and among others, and three
spellings of alternatives without content. -/
theorem Tree.read_spellings_sum :
    ofJson? (.arr [.obj [(some "BinaryOp", .obj
      [(some "right", .arr [.obj [(some "Literal", .text "Null")]]),
        (none, .bool true),
        (some "op", .obj [(some "Add", .null)]),
        (some "left", .obj [(some "note", .null),
          (some "kind", .obj [(some "Literal", .obj [(some "Null", .null)])])])])]]) =
      some (.bare (.binary .add (.bare (.literal .null)) (.bare (.literal .null)))) := by
  have hnull : spellings (.bare (.literal .null)) = nodes (tagged "Literal" (bareTags "Null")) .empty :=
    spellings_mk _ _
  have hleft : .obj [(some "note", .null),
      (some "kind", .obj [(some "Literal", .obj [(some "Null", .null)])])] ∈
        spellings (.bare (.literal .null)) := by
    rw [hnull]
    refine .inl (.inl ⟨_, rfl, .cons ⟨some _, ⟨_, .inr rfl, rfl⟩, ?_⟩ (.cons ⟨none, rfl, ?_⟩ .nil)⟩)
    · simp [Json.valuesOf]
    · simp [Json.valuesOf]
  have hright : .arr [.obj [(some "Literal", .text "Null")]] ∈ spellings (.bare (.literal .null)) := by
    rw [hnull]
    exact .inr ⟨rfl, _, ⟨_, .inl rfl, rfl⟩, rfl⟩
  refine (read_spellings _).1 _ ?_
  rw [bare, spellings_mk]
  refine .inr ⟨rfl, _, ⟨_, ⟨_, rfl, .cons ⟨some _, .inr rfl, ?_⟩ (.cons ⟨some _, hleft, ?_⟩
    (.cons ⟨some _, hright, ?_⟩ .nil))⟩, rfl⟩, rfl⟩
  all_goals simp [Json.valuesOf, BinaryOp.label]

end Graft
