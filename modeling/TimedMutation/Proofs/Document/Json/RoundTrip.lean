import TimedMutation.Proofs.Document.Json.Scalar

/-! What JSON reads back. The texts of a document are a relation that leaves the blanks between marks
open; both layouts that are written are among them, and every one of them is read as its document. -/

namespace TimedMutation.Json

def Blank (b : List Char) : Prop := ∀ c ∈ b, isSpace c = true

/-- The parts of a text: a value, what stands between the marks of a list, one entry of a map, and
what stands between the marks of a map. -/
inductive Part where
  | value (d : Document)
  | items (ds : List Document)
  | entry (key : String) (d : Document)
  | entries (es : List (Scalar × Document))

/-- The texts of a part. -/
inductive Writes : Part → List Char → Prop
  | scalar {s : Scalar} (hs : Keeps s) : Writes (.value (.scalar s)) (scalarText s).toList
  | emptyList : Writes (.value (.list [])) ['[', ']']
  | list {ds : List Document} {b cs b' : List Char} (hb : Blank b) (hcs : Writes (.items ds) cs)
    (hb' : Blank b') : Writes (.value (.list ds)) ('[' :: (b ++ (cs ++ (b' ++ [']']))))
  | emptyMap : Writes (.value (.map [])) ['\x7b', '\x7d']
  | map {es : List (Scalar × Document)} {b cs b' : List Char} (hb : Blank b)
    (hcs : Writes (.entries es) cs) (hb' : Blank b') :
    Writes (.value (.map es)) ('\x7b' :: (b ++ (cs ++ (b' ++ ['\x7d']))))
  | lastItem {d : Document} {cs : List Char} (hcs : Writes (.value d) cs) : Writes (.items [d]) cs
  | item {d : Document} {ds : List Document} {cs b cs' : List Char} (hcs : Writes (.value d) cs)
    (hb : Blank b) (hcs' : Writes (.items ds) cs') :
    Writes (.items (d :: ds)) (cs ++ ',' :: (b ++ cs'))
  | entry {key : String} {d : Document} {b cs : List Char} (hb : Blank b)
    (hcs : Writes (.value d) cs) : Writes (.entry key d) ((quoted key).toList ++ ':' :: (b ++ cs))
  | lastEntry {key : String} {d : Document} {cs : List Char} (hcs : Writes (.entry key d) cs) :
    Writes (.entries [(.text key, d)]) cs
  | nextEntry {key : String} {d : Document} {es : List (Scalar × Document)} {cs b cs' : List Char}
    (hcs : Writes (.entry key d) cs) (hb : Blank b) (hcs' : Writes (.entries es) cs') :
    Writes (.entries ((.text key, d) :: es)) (cs ++ ',' :: (b ++ cs'))

variable {b cs cs' rest : List Char} {d : Document} {ds : List Document}
  {es : List (Scalar × Document)} {key : String} {budget : ℕ}

/-! ### Blanks and first characters -/

theorem skipSpaces_append (hb : Blank b) (cs : List Char) : skipSpaces (b ++ cs) = skipSpaces cs :=
  List.dropWhile_append_of_pos hb

theorem skipSpaces_cons {c : Char} (hc : isSpace c = false) (cs : List Char) :
    skipSpaces (c :: cs) = c :: cs := by
  simp [skipSpaces, hc]

theorem Blank.closes {c : Char} (hb : Blank b) (hc : Closes [c]) (cs : List Char) :
    Closes (b ++ c :: cs) := by
  cases b with
  | nil => exact hc
  | cons x b =>
    intro y hy
    cases hy
    exact .inl (hb x (by simp))

/-- A value starts with a character that is neither a blank nor a closing mark. -/
theorem Writes.exists_cons (h : Writes (.value d) cs) :
    ∃ c cs', cs = c :: cs' ∧ isSpace c = false ∧ c ≠ ']' ∧ c ≠ '\x7d' := by
  cases h with
  | scalar hs =>
    obtain ⟨c, cs', hcs, hc⟩ := exists_scalarText hs
    exact ⟨c, cs', hcs, hc.1, hc.2.2.1, hc.2.2.2.2⟩
  | emptyList | list | emptyMap | map => exact ⟨_, _, rfl, by decide, by decide, by decide⟩

theorem Writes.exists_cons_items (h : Writes (.items ds) cs) :
    ∃ c cs', cs = c :: cs' ∧ isSpace c = false ∧ c ≠ ']' := by
  cases h with
  | lastItem hcs =>
    obtain ⟨c, cs', rfl, hc⟩ := hcs.exists_cons
    exact ⟨c, cs', rfl, hc.1, hc.2.1⟩
  | item hcs hb hcs' =>
    obtain ⟨c, cs', rfl, hc⟩ := hcs.exists_cons
    exact ⟨c, _, rfl, hc.1, hc.2.1⟩

theorem Writes.exists_cons_entry (h : Writes (.entry key d) cs) : ∃ cs', cs = '"' :: cs' := by
  cases h with
  | entry hb hcs => exact ⟨_, by rw [toList_quoted]; rfl⟩

theorem Writes.exists_cons_entries (h : Writes (.entries es) cs) : ∃ cs', cs = '"' :: cs' := by
  cases h with
  | lastEntry hcs => exact hcs.exists_cons_entry
  | nextEntry hcs hb hcs' =>
    obtain ⟨cs', rfl⟩ := hcs.exists_cons_entry
    exact ⟨_, rfl⟩

/-! ### Reading -/

/-- How the text of a part is read. The budget is longer than the text, by two where the part stands
between marks. -/
def IsRead : Part → List Char → Prop
  | .value d, cs => ∀ budget b rest, cs.length < budget → Blank b → Closes rest →
      valueAt? budget (b ++ (cs ++ rest)) = some (d, rest)
  | .items ds, cs => ∀ budget b b' rest, cs.length + 1 < budget → Blank b → Blank b' →
      itemsAt? budget (b ++ (cs ++ (b' ++ ']' :: rest))) = some (ds, rest)
  | .entry key d, cs => ∃ b cs', cs = (quoted key).toList ++ ':' :: (b ++ cs') ∧ Blank b ∧
      ∀ budget b rest, cs'.length < budget → Blank b → Closes rest →
        valueAt? budget (b ++ (cs' ++ rest)) = some (d, rest)
  | .entries es, cs => ∀ budget b b' rest, cs.length + 1 < budget → Blank b → Blank b' →
      entriesAt? budget (b ++ (cs ++ (b' ++ '\x7d' :: rest))) = some (es, rest)

theorem isRead_scalar {s : Scalar} (hs : Keeps s) :
    IsRead (.value (.scalar s)) (scalarText s).toList := by
  intro budget b rest hbudget hb hrest
  obtain ⟨budget, rfl⟩ := Nat.exists_eq_succ_of_ne_zero (Nat.ne_zero_of_lt hbudget)
  obtain ⟨c, cs, hcs, hc⟩ := exists_scalarText hs
  have hscalar := scalar?_scalarText hs hrest
  rw [hcs, List.cons_append] at hscalar ⊢
  rw [valueAt?, skipSpaces_append hb, skipSpaces_cons hc.1]
  split
  · rename_i heq
    exact absurd (List.cons.inj heq).1 hc.2.1
  · rename_i heq
    exact absurd (List.cons.inj heq).1 hc.2.2.2.1
  · rw [hscalar]
    rfl

theorem isRead_list (hb : Blank b) (hcs : Writes (.items ds) cs) {b' : List Char} (hb' : Blank b')
    (ih : IsRead (.items ds) cs) :
    IsRead (.value (.list ds)) ('[' :: (b ++ (cs ++ (b' ++ [']'])))) := by
  intro budget b₀ rest hbudget hb₀ hrest
  obtain ⟨budget, rfl⟩ := Nat.exists_eq_succ_of_ne_zero (Nat.ne_zero_of_lt hbudget)
  have hlength : cs.length + 1 < budget := by
    simp only [List.length_cons, List.length_append, List.length_nil] at hbudget
    omega
  have hitems := ih budget [] b' rest hlength (by simp [Blank]) hb'
  obtain ⟨c, cs, rfl, hspace, hclosing⟩ := hcs.exists_cons_items
  simp only [List.cons_append, List.append_assoc, List.nil_append] at hitems ⊢
  rw [valueAt?, skipSpaces_append hb₀, skipSpaces_cons (by decide)]
  simp only [skipSpaces_append hb, skipSpaces_cons hspace]
  split
  · rename_i heq
    exact absurd (List.cons.inj heq).1 hclosing
  · rw [hitems]
    rfl

theorem isRead_map (hb : Blank b) (hcs : Writes (.entries es) cs) {b' : List Char}
    (hb' : Blank b') (ih : IsRead (.entries es) cs) :
    IsRead (.value (.map es)) ('\x7b' :: (b ++ (cs ++ (b' ++ ['\x7d'])))) := by
  intro budget b₀ rest hbudget hb₀ hrest
  obtain ⟨budget, rfl⟩ := Nat.exists_eq_succ_of_ne_zero (Nat.ne_zero_of_lt hbudget)
  have hlength : cs.length + 1 < budget := by
    simp only [List.length_cons, List.length_append, List.length_nil] at hbudget
    omega
  have hentries := ih budget [] b' rest hlength (by simp [Blank]) hb'
  obtain ⟨cs, rfl⟩ := hcs.exists_cons_entries
  simp only [List.cons_append, List.append_assoc, List.nil_append] at hentries ⊢
  rw [valueAt?, skipSpaces_append hb₀, skipSpaces_cons (by decide)]
  simp only [skipSpaces_append hb, skipSpaces_cons (by decide : isSpace '"' = false)]
  split
  · rename_i heq
    exact absurd (List.cons.inj heq).1 (by decide)
  · rw [hentries]
    rfl

theorem isRead_lastItem (ih : IsRead (.value d) cs) : IsRead (.items [d]) cs := by
  intro budget b b' rest hbudget hb hb'
  obtain ⟨budget, rfl⟩ := Nat.exists_eq_succ_of_ne_zero (Nat.ne_zero_of_lt hbudget)
  have hvalue := ih budget b (b' ++ ']' :: rest) (by omega) hb (hb'.closes (by simp [Closes]) rest)
  rw [itemsAt?, hvalue, Option.bind_eq_bind, Option.bind_some]
  simp only [skipSpaces_append hb', skipSpaces_cons (by decide : isSpace ']' = false)]
  rfl

theorem isRead_item (ih : IsRead (.value d) cs) (hb : Blank b) (ih' : IsRead (.items ds) cs') :
    IsRead (.items (d :: ds)) (cs ++ ',' :: (b ++ cs')) := by
  intro budget b₀ b' rest hbudget hb₀ hb'
  obtain ⟨budget, rfl⟩ := Nat.exists_eq_succ_of_ne_zero (Nat.ne_zero_of_lt hbudget)
  simp only [List.length_append, List.length_cons] at hbudget
  have hvalue := ih budget b₀ (',' :: (b ++ (cs' ++ (b' ++ ']' :: rest)))) (by omega) hb₀
    (by simp [Closes])
  have hitems := ih' budget b b' rest (by omega) hb hb'
  simp only [List.append_assoc, List.cons_append]
  rw [itemsAt?, hvalue, Option.bind_eq_bind, Option.bind_some]
  simp only [skipSpaces_cons (by decide : isSpace ',' = false)]
  rw [hitems]
  rfl

/-- Up to the value, an entry is read alike whether it is the last one or not. -/
theorem entriesAt?_entry (hb : Blank b) {b₀ : List Char}
    (hvalue : valueAt? budget (b₀ ++ (cs ++ rest)) = some (d, rest)) :
    entriesAt? (budget + 1) (b ++ ((quoted key).toList ++ ':' :: (b₀ ++ (cs ++ rest)))) =
      match skipSpaces rest with
      | '\x7d' :: rest => some ([(.text key, d)], rest)
      | ',' :: rest => do
        let (es, rest) ← entriesAt? budget rest
        return ((.text key, d) :: es, rest)
      | _ => none := by
  obtain ⟨ps, hpieces, hscalar⟩ := pieces?_quoted key (':' :: (b₀ ++ (cs ++ rest)))
  simp only [toList_quoted, List.append_assoc, List.cons_append, List.nil_append]
  rw [entriesAt?, skipSpaces_append hb, skipSpaces_cons (by decide)]
  simp only [hpieces, Option.bind_eq_bind, Option.bind_some]
  simp only [skipSpaces_cons (by decide : isSpace ':' = false), hvalue, Option.bind_some, hscalar]
  rfl

theorem isRead_lastEntry (ih : IsRead (.entry key d) cs) :
    IsRead (.entries [(.text key, d)]) cs := by
  intro budget b b' rest hbudget hb hb'
  obtain ⟨budget, rfl⟩ := Nat.exists_eq_succ_of_ne_zero (Nat.ne_zero_of_lt hbudget)
  obtain ⟨b₀, cs, rfl, hb₀, hvalue⟩ := ih
  simp only [List.length_append, List.length_cons] at hbudget
  have hvalue := hvalue budget b₀ (b' ++ '\x7d' :: rest) (by omega) hb₀
    (hb'.closes (by simp [Closes]) rest)
  simp only [List.append_assoc, List.cons_append]
  rw [entriesAt?_entry hb hvalue, skipSpaces_append hb', skipSpaces_cons (by decide)]
  rfl

theorem isRead_nextEntry (ih : IsRead (.entry key d) cs) (hb : Blank b)
    (ih' : IsRead (.entries es) cs') :
    IsRead (.entries ((.text key, d) :: es)) (cs ++ ',' :: (b ++ cs')) := by
  intro budget b₁ b' rest hbudget hb₁ hb'
  obtain ⟨budget, rfl⟩ := Nat.exists_eq_succ_of_ne_zero (Nat.ne_zero_of_lt hbudget)
  obtain ⟨b₀, cs, rfl, hb₀, hvalue⟩ := ih
  simp only [List.length_append, List.length_cons] at hbudget
  have hvalue := hvalue budget b₀ (',' :: (b ++ (cs' ++ (b' ++ '\x7d' :: rest)))) (by omega) hb₀
    (by simp [Closes])
  have hentries := ih' budget b b' rest (by omega) hb hb'
  simp only [List.append_assoc, List.cons_append]
  rw [entriesAt?_entry hb₁ hvalue, skipSpaces_cons (by decide)]
  simp only [hentries]
  rfl

/-- Every text of a part is read as that part. -/
theorem Writes.isRead {p : Part} {cs : List Char} (h : Writes p cs) : IsRead p cs := by
  induction h with
  | scalar hs => exact isRead_scalar hs
  | emptyList =>
    intro budget b rest hbudget hb hrest
    obtain ⟨budget, rfl⟩ := Nat.exists_eq_succ_of_ne_zero (Nat.ne_zero_of_lt hbudget)
    rw [valueAt?, skipSpaces_append hb]
    rfl
  | list hb hcs hb' ih => exact isRead_list hb hcs hb' ih
  | emptyMap =>
    intro budget b rest hbudget hb hrest
    obtain ⟨budget, rfl⟩ := Nat.exists_eq_succ_of_ne_zero (Nat.ne_zero_of_lt hbudget)
    rw [valueAt?, skipSpaces_append hb]
    rfl
  | map hb hcs hb' ih => exact isRead_map hb hcs hb' ih
  | lastItem hcs ih => exact isRead_lastItem ih
  | item hcs hb hcs' ih ih' => exact isRead_item ih hb ih'
  | entry hb hcs ih => exact ⟨_, _, rfl, hb, ih⟩
  | lastEntry hcs ih => exact isRead_lastEntry ih
  | nextEntry hcs hb hcs' ih ih' => exact isRead_nextEntry ih hb ih'

theorem read?_of_writes {text : String} (h : Writes (.value d) text.toList) :
    read? text = some d := by
  have hvalue := h.isRead (text.toList.length + 1) [] [] (by omega) (by simp [Blank])
    (by simp [Closes])
  simp only [List.nil_append, List.append_nil] at hvalue
  simp [read?, hvalue, skipSpaces]

/-! ### Writing -/

/-- Documents that JSON writes without loss: their single values are kept and their keys are
strings. -/
inductive Lossless : Document → Prop
  | scalar {s : Scalar} (hs : Keeps s) : Lossless (.scalar s)
  | list {ds : List Document} (hds : ∀ d ∈ ds, Lossless d) : Lossless (.list ds)
  | map {es : List (Scalar × Document)} (hkeys : ∀ e ∈ es, ∃ key, e.1 = .text key)
    (hes : ∀ e ∈ es, Lossless e.2) : Lossless (.map es)

theorem compactItems_eq_map (ds : List Document) : compactItems ds = ds.map compact := by
  induction ds with
  | nil => rfl
  | cons d ds ih => rw [compactItems, ih, List.map_cons]

theorem compactEntries_eq_map (es : List (Scalar × Document)) :
    compactEntries es = es.map fun e => keyText e.1 ++ ":" ++ compact e.2 := by
  induction es with
  | nil => rfl
  | cons e es ih => rw [compactEntries, ih, List.map_cons]

theorem prettyItems_eq_map (depth : ℕ) (ds : List Document) :
    prettyItems depth ds = ds.map (prettyAt depth) := by
  induction ds with
  | nil => rfl
  | cons d ds ih => rw [prettyItems, ih, List.map_cons]

theorem prettyEntries_eq_map (depth : ℕ) (es : List (Scalar × Document)) :
    prettyEntries depth es = es.map fun e => keyText e.1 ++ ": " ++ prettyAt depth e.2 := by
  induction es with
  | nil => rfl
  | cons e es ih => rw [prettyEntries, ih, List.map_cons]

theorem writes_items {write : Document → List Char} (hb : Blank b)
    (h : ∀ d ∈ ds, Writes (.value d) (write d)) (hds : ds ≠ []) :
    Writes (.items ds) ((',' :: b).intercalate (ds.map write)) := by
  induction ds with
  | nil => exact absurd rfl hds
  | cons d ds ih =>
    rw [List.forall_mem_cons] at h
    cases ds with
    | nil => simpa using Writes.lastItem h.1
    | cons d' ds =>
      simp only [List.map_cons] at ih ⊢
      rw [List.intercalate_cons_cons]
      simpa using Writes.item h.1 hb (ih h.2 (by simp))

theorem writes_entries (write : Document → List Char) {b₀ : List Char} (hb₀ : Blank b₀)
    (hb : Blank b) (hkeys : ∀ e ∈ es, ∃ key, e.1 = .text key)
    (h : ∀ e ∈ es, Writes (.value e.2) (write e.2)) (hes : es ≠ []) :
    Writes (.entries es)
      ((',' :: b).intercalate (es.map fun e => (keyText e.1).toList ++ ':' :: (b₀ ++ write e.2))) := by
  induction es with
  | nil => exact absurd rfl hes
  | cons e es ih =>
    obtain ⟨_, d⟩ := e
    rw [List.forall_mem_cons] at hkeys h
    obtain ⟨⟨key, hkey⟩, hkeys⟩ := hkeys
    cases hkey
    have hentry : Writes (.entry key d) ((keyText (.text key)).toList ++ ':' :: (b₀ ++ write d)) :=
      .entry hb₀ h.1
    cases es with
    | nil => simpa using Writes.lastEntry hentry
    | cons e' es =>
      simp only [List.map_cons] at ih ⊢
      rw [List.intercalate_cons_cons]
      simpa using Writes.nextEntry hentry hb (ih hkeys h.2 (by simp))

theorem blank_indentation (depth : ℕ) : Blank (indentation depth).toList := by
  intro c hc
  rw [indentation, String.toList_ofList, List.mem_replicate] at hc
  rw [hc.2]
  rfl

theorem blank_line (depth : ℕ) : Blank ('\n' :: (indentation depth).toList) := by
  intro c hc
  rcases List.mem_cons.mp hc with rfl | hc
  · rfl
  · exact blank_indentation depth c hc

theorem toList_indented (indent : String) {texts : List String} (h : texts ≠ []) :
    (String.intercalate ",\n" (texts.map fun text => indent ++ text)).toList =
      indent.toList ++ (',' :: '\n' :: indent.toList).intercalate (texts.map String.toList) := by
  induction texts with
  | nil => exact absurd rfl h
  | cons text texts ih =>
    cases texts with
    | nil => simp
    | cons text' texts =>
      have ih := ih (by simp)
      simp only [List.map_cons, String.toList_intercalate] at ih ⊢
      rw [List.intercalate_cons_cons, List.intercalate_cons_cons, ih]
      simp

theorem toList_block (depth : ℕ) (opening closing : String) {texts : List String}
    (h : texts ≠ []) :
    (block depth opening closing texts).toList =
      opening.toList ++ ('\n' :: (indentation (depth + 1)).toList ++
        ((',' :: '\n' :: (indentation (depth + 1)).toList).intercalate (texts.map String.toList) ++
          ('\n' :: (indentation depth).toList ++ closing.toList))) := by
  rw [block, if_neg (by simpa using h)]
  simp [toList_indented _ h]

theorem writes_compact (h : Lossless d) : Writes (.value d) (compact d).toList := by
  have hblank : Blank [] := by simp [Blank]
  induction h with
  | scalar hs => exact .scalar hs
  | @list ds hds ih =>
    rw [compact, compactItems_eq_map]
    by_cases hne : ds = []
    · subst hne
      exact .emptyList
    · have hlist := Writes.list hblank (writes_items hblank ih hne) hblank
      simpa [String.toList_intercalate, Function.comp_def] using hlist
  | @map es hkeys hes ih =>
    rw [compact, compactEntries_eq_map]
    by_cases hne : es = []
    · subst hne
      exact .emptyMap
    · have hentries := writes_entries (fun d => (compact d).toList) hblank hblank hkeys ih hne
      have hmap := Writes.map hblank hentries hblank
      simpa [String.toList_intercalate, Function.comp_def] using hmap

theorem writes_prettyAt (h : Lossless d) (depth : ℕ) :
    Writes (.value d) (prettyAt depth d).toList := by
  induction h generalizing depth with
  | scalar hs => exact .scalar hs
  | @list ds hds ih =>
    rw [prettyAt, prettyItems_eq_map]
    by_cases hne : ds = []
    · subst hne
      simpa [block] using Writes.emptyList
    · have hitems := writes_items (blank_line (depth + 1)) (fun d hd => ih d hd (depth + 1)) hne
      have hlist := Writes.list (blank_line (depth + 1)) hitems (blank_line depth)
      rw [toList_block _ _ _ (by simpa using hne)]
      simpa [Function.comp_def] using hlist
  | @map es hkeys hes ih =>
    rw [prettyAt, prettyEntries_eq_map]
    by_cases hne : es = []
    · subst hne
      simpa [block] using Writes.emptyMap
    · have hentries := writes_entries (fun d => (prettyAt (depth + 1) d).toList)
        (by simp [Blank, isSpace] : Blank [' ']) (blank_line (depth + 1)) hkeys
        (fun e he => ih e he (depth + 1)) hne
      have hmap := Writes.map (blank_line (depth + 1)) hentries (blank_line depth)
      rw [toList_block _ _ _ (by simpa using hne)]
      simpa [Function.comp_def] using hmap

/-- A document is read back from the line and from the lines that are written for it. -/
theorem read?_compact (h : Lossless d) : read? (compact d) = some d :=
  read?_of_writes (writes_compact h)

theorem read?_pretty (h : Lossless d) : read? (pretty d) = some d :=
  read?_of_writes (writes_prettyAt h 0)

end TimedMutation.Json
