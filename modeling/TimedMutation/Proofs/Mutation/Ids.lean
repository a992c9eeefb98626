import TimedMutation.CommandLine.Host
import TimedMutation.Proofs.Mutation.Found
import TimedMutation.Proofs.Text.Numeral

/-! The id of a test case tells its mutant. A name may hold the marks that stand between the parts of
an id, so that the parts around it are told by what they cannot hold: a class has no digits, a place
has nothing else, and the value of a local, at the end, has no underscore. -/

namespace TimedMutation

namespace Text

/-- A run of characters of one kind ends where another kind follows. -/
theorem append_inj_of_run {p : Char → Bool} {as bs as' bs' : List Char}
    (has : ∀ x ∈ as, p x = true) (has' : ∀ x ∈ as', p x = true) (hbs : ∀ x ∈ bs.head?, p x = false)
    (hbs' : ∀ x ∈ bs'.head?, p x = false) (h : as ++ bs = as' ++ bs') : as = as' ∧ bs = bs' := by
  have hrun : ∀ {cs ds : List Char}, (∀ x ∈ cs, p x = true) → (∀ x ∈ ds.head?, p x = false) →
      (cs ++ ds).takeWhile p = cs := by
    intro cs ds hcs hds
    rw [List.takeWhile_append_of_pos hcs]
    cases ds with
    | nil => simp
    | cons d ds => simp [hds d rfl]
  have heq : as = as' := by rw [← hrun has hbs, h, hrun has' hbs']
  subst heq
  exact ⟨rfl, List.append_cancel_left h⟩

theorem place_inj {i j : ℕ} {key key' : String}
    (h : ofNat i ++ "_" ++ key = ofNat j ++ "_" ++ key') : i = j ∧ key = key' := by
  have hlists : (ofNat i).toList ++ '_' :: key.toList = (ofNat j).toList ++ '_' :: key'.toList := by
    simpa using congrArg String.toList h
  have hmark : ∀ {rest : List Char}, ∀ x ∈ ('_' :: rest).head?, x.isDigit = false := by
    rintro rest x ⟨⟩
    decide
  obtain ⟨hplace, hkey⟩ := append_inj_of_run (fun x => isDigit_of_mem_ofNat)
    (fun x => isDigit_of_mem_ofNat) hmark hmark hlists
  exact ⟨ofNat_injective (String.toList_inj.mp hplace), String.toList_inj.mp (List.cons.inj hkey).2⟩

theorem ne_underscore_of_mem_ofInt {n : Int} {c : Char} (h : c ∈ (ofInt n).toList) : c ≠ '_' := by
  rintro rfl
  cases n with
  | ofNat n => exact absurd (isDigit_of_mem_ofNat h) (by decide)
  | negSucc n =>
    rw [ofInt, String.toList_append, List.mem_append] at h
    rcases h with hminus | hdigit
    · exact absurd hminus (by decide)
    · exact absurd (isDigit_of_mem_ofNat hdigit) (by decide)

theorem value_inj {name name' : String} {n n' : Int}
    (h : name ++ "_" ++ ofInt n = name' ++ "_" ++ ofInt n') : name = name' ∧ ofInt n = ofInt n' := by
  have hlists : (ofInt n).toList.reverse ++ '_' :: name.toList.reverse =
      (ofInt n').toList.reverse ++ '_' :: name'.toList.reverse := by
    simpa using congrArg (fun text => text.toList.reverse) h
  have hvalue : ∀ {n : Int}, ∀ x ∈ (ofInt n).toList.reverse, (x != '_') = true := by
    intro n x hx
    simpa using ne_underscore_of_mem_ofInt (List.mem_reverse.mp hx)
  have hmark : ∀ {rest : List Char}, ∀ x ∈ ('_' :: rest).head?, (x != '_') = false := by
    rintro rest x ⟨⟩
    decide
  obtain ⟨hn, hname⟩ := append_inj_of_run hvalue hvalue hmark hmark hlists
  exact ⟨String.toList_inj.mp (List.reverse_injective (List.cons.inj hname).2),
    String.toList_inj.mp (List.reverse_injective hn)⟩

end Text

theorem Comparison.name_injective {op op' : Comparison} (h : op.name = op'.name) : op = op' := by
  cases op <;> cases op' <;> first | rfl | exact absurd h (by decide)

theorem MutationClass.code_inj {m m' : MutationClass} {i j : ℕ} {key key' : String}
    (h : m.code ++ "_" ++ (Text.ofNat i ++ "_" ++ key) =
      m'.code ++ "_" ++ (Text.ofNat j ++ "_" ++ key')) : m = m' := by
  have hcode : ∀ {m : MutationClass}, ∀ x ∈ (m.code ++ "_").toList, (!x.isDigit) = true := by
    intro m
    refine List.all_eq_true.mp ?_
    cases m <;> decide
  have hplace : ∀ {i : ℕ} {key : String}, ∀ x ∈ (Text.ofNat i ++ "_" ++ key).toList.head?,
      (!x.isDigit) = false := by
    intro i key x hx
    obtain ⟨d, ds, hds⟩ := List.exists_cons_of_ne_nil (Text.ofNat_ne_nil i)
    have hd : d.isDigit = true := Text.isDigit_of_mem_ofNat (by rw [hds]; simp)
    rw [String.toList_append, String.toList_append, hds] at hx
    cases hx
    simpa using hd
  have hlists := congrArg String.toList h
  rw [String.toList_append, String.toList_append (s := m'.code ++ "_")] at hlists
  obtain ⟨hm, -⟩ := Text.append_inj_of_run hcode hcode hplace hplace hlists
  exact code_injective ((String.append_left_inj "_").mp (String.toList_inj.mp hm))

namespace Mutation

variable {c : Component} {x y : Mutation} {m m' : MutationClass}

theorem Is.of_discriminator_eq {i j : ℕ} {key key' : String} {edit edit' : Edit}
    (hx : x.Is m i key edit) (hy : y.Is m' j key' edit')
    (h : x.discriminator = y.discriminator) : i = j ∧ key = key' := by
  rw [hx.discriminator, hy.discriminator] at h
  exact Text.place_inj h

theorem Is.of_id_eq {i j : ℕ} {key key' : String} {edit edit' : Edit} (hx : x.Is m i key edit)
    (hy : y.Is m' j key' edit') (h : x.id = y.id) :
    m = m' ∧ x.discriminator = y.discriminator := by
  rw [Mutation.id, Mutation.id, hx.operator, hy.operator] at h
  have hm : m = m' := by
    rw [hx.discriminator, hy.discriminator] at h
    exact MutationClass.code_inj h
  subst hm
  exact ⟨rfl, (String.append_right_inj _).mp h⟩

/-! ### The edit that a key tells -/

theorem Is.edit_eq (edit : ℕ → String → Edit) {i j : ℕ} {key key' : String}
    (hx : x.Is m i key (edit i key)) (hy : y.Is m' j key' (edit j key'))
    (h : x.discriminator = y.discriminator) : x.edit = y.edit := by
  obtain ⟨rfl, rfl⟩ := hx.of_discriminator_eq hy h
  rw [hx.edit, hy.edit]

theorem MovesSource.edit_eq (hx : x.MovesSource c) (hy : y.MovesSource c)
    (h : x.discriminator = y.discriminator) : x.edit = y.edit := by
  obtain ⟨-, -, -, -, hx⟩ := hx
  obtain ⟨-, -, -, -, hy⟩ := hy
  exact Is.edit_eq .source hx hy h

theorem MovesTarget.edit_eq (hx : x.MovesTarget c) (hy : y.MovesTarget c)
    (h : x.discriminator = y.discriminator) : x.edit = y.edit := by
  obtain ⟨-, -, -, -, hx⟩ := hx
  obtain ⟨-, -, -, -, hy⟩ := hy
  exact Is.edit_eq .target hx hy h

theorem GivesAction.edit_eq {direction : Direction} (hx : x.GivesAction c direction)
    (hy : y.GivesAction c direction) (h : x.discriminator = y.discriminator) :
    x.edit = y.edit := by
  obtain ⟨-, -, -, -, hx⟩ := hx
  obtain ⟨-, -, -, -, hy⟩ := hy
  exact Is.edit_eq (fun i label => .action i direction label) hx hy h

theorem AddsSink.edit_eq (hx : x.AddsSink c) (hy : y.AddsSink c)
    (h : x.discriminator = y.discriminator) : x.edit = y.edit := by
  obtain ⟨-, -, hx⟩ := hx
  obtain ⟨-, -, hy⟩ := hy
  exact Is.edit_eq .sink hx hy h

theorem SwapsComparison.edit_eq {aboutClocks : Bool} {candidates : List Comparison}
    (hx : x.SwapsComparison c m aboutClocks candidates)
    (hy : y.SwapsComparison c m aboutClocks candidates)
    (h : x.discriminator = y.discriminator) : x.edit = y.edit := by
  obtain ⟨he, -, hguard, hpart, -, hrelation, -, -, hx⟩ := hx
  obtain ⟨he', -, hguard', hpart', -, hrelation', -, -, hy⟩ := hy
  obtain ⟨rfl, hkey⟩ := hx.of_discriminator_eq hy h
  obtain ⟨rfl, hname⟩ := Text.place_inj hkey
  cases he.symm.trans he'
  cases hguard.symm.trans hguard'
  cases hpart.symm.trans hpart'
  cases hrelation.symm.trans hrelation'
  cases Comparison.name_injective hname
  rw [hx.edit, hy.edit]

theorem ShiftsConstant.edit_eq (hx : x.ShiftsConstant c) (hy : y.ShiftsConstant c)
    (h : x.discriminator = y.discriminator) : x.edit = y.edit := by
  obtain ⟨he, -, hliteral, hshift, hx⟩ := hx
  obtain ⟨he', -, hliteral', hshift', hy⟩ := hy
  obtain ⟨rfl, hkey⟩ := hx.of_discriminator_eq hy h
  obtain ⟨rfl, rfl⟩ := Text.place_inj hkey
  cases he.symm.trans he'
  cases hliteral.symm.trans hliteral'
  have hnames : (Component.shifts.map Prod.snd).Nodup := by decide
  cases List.inj_on_of_nodup_map hnames hshift hshift' rfl
  rw [hx.edit, hy.edit]

theorem LoosensBound.edit_eq (hx : x.LoosensBound c) (hy : y.LoosensBound c)
    (h : x.discriminator = y.discriminator) : x.edit = y.edit := by
  obtain ⟨hl, -, hinvariant, hpart, hrelation, hx⟩ := hx
  obtain ⟨hl', -, hinvariant', hpart', hrelation', hy⟩ := hy
  obtain ⟨rfl, hkey⟩ := hx.of_discriminator_eq hy h
  cases Text.ofNat_injective hkey
  cases hl.symm.trans hl'
  cases hinvariant.symm.trans hinvariant'
  cases hpart.symm.trans hpart'
  cases hrelation.symm.trans hrelation'
  rw [hx.edit, hy.edit]

theorem TogglesReset.edit_eq (hx : x.TogglesReset c) (hy : y.TogglesReset c)
    (h : x.discriminator = y.discriminator) : x.edit = y.edit := by
  obtain ⟨he, -, hu, -, htoggled, hx⟩ := hx
  obtain ⟨he', -, hu', -, htoggled', hy⟩ := hy
  obtain ⟨rfl, rfl⟩ := hx.of_discriminator_eq hy h
  cases he.symm.trans he'
  cases hu.symm.trans hu'
  cases htoggled.symm.trans htoggled'
  rw [hx.edit, hy.edit]

/-- Locals of the same name may have different ranges, but a value is assigned by its text. -/
theorem AssignsValue.edit_eq (hx : x.AssignsValue c) (hy : y.AssignsValue c)
    (h : x.discriminator = y.discriminator) : x.edit = y.edit := by
  obtain ⟨he, -, hu, -, -, -, hassign, hx⟩ := hx
  obtain ⟨he', -, hu', -, -, -, hassign', hy⟩ := hy
  obtain ⟨rfl, hkey⟩ := hx.of_discriminator_eq hy h
  obtain ⟨hname, hvalue⟩ := Text.value_inj hkey
  cases he.symm.trans he'
  cases hu.symm.trans hu'
  rw [hname, hvalue] at hassign
  cases hassign.symm.trans hassign'
  rw [hx.edit, hy.edit]

/-- Mutations of the same id are of the same class and make the same edit. -/
theorem MadeBy.of_id_eq (hx : x.MadeBy c m) (hy : y.MadeBy c m') (h : x.id = y.id) :
    x.operator = y.operator ∧ x.edit = y.edit := by
  obtain ⟨_, _, hisx⟩ := hx.is
  obtain ⟨_, _, hisy⟩ := hy.is
  obtain ⟨rfl, hkey⟩ := hisx.of_id_eq hisy h
  refine ⟨hisx.operator.trans hisy.operator.symm, ?_⟩
  cases m with
  | changeSource => exact MovesSource.edit_eq hx hy hkey
  | changeTarget => exact MovesTarget.edit_eq hx hy hkey
  | changeGuardOpClocks | changeGuardOpLocals => exact SwapsComparison.edit_eq hx hy hkey
  | changeGuardConstant => exact ShiftsConstant.edit_eq hx hy hkey
  | invertReset => exact TogglesReset.edit_eq hx hy hkey
  | changeInvariant => exact LoosensBound.edit_eq hx hy hkey
  | changeActionInputs | changeActionOutputs => exact GivesAction.edit_eq hx hy hkey
  | changeVarUpdate => exact AssignsValue.edit_eq hx hy hkey
  | sinkLocation => exact AddsSink.edit_eq hx hy hkey

end Mutation

namespace CommandLine

theorem inDirectory_inj {directory file file' : String}
    (h : inDirectory directory file = inDirectory directory file') : file = file' := by
  simp only [inDirectory] at h
  split at h
  · exact (String.append_right_inj _).mp h
  · exact (String.append_right_inj _).mp h
  · exact (String.append_right_inj _).mp h

end CommandLine

theorem Component.madeBy_of_mem_mutations {c : Component} {selected : List MutationClass}
    {x : Mutation} (hx : x ∈ c.mutations selected) : ∃ m, x.MadeBy c m := by
  obtain ⟨m, -, hmem⟩ := List.mem_flatMap.mp hx
  split at hmem
  · rename_i found hfound
    exact ⟨m, Mutation.madeBy_of_mem hfound hmem⟩
  · simp at hmem

/-- Test cases of a component with the same id are of the same class and have the same mutant,
whatever the component declares and however often. So do test cases for which a file of the same path
is named by the id. -/
theorem testCase_of_id (c : Component) (selected : List MutationClass) {x y : TestCase}
    (hx : x ∈ c.testCases selected) (hy : y ∈ c.testCases selected) :
    (x.id = y.id → x.operator = y.operator ∧ x.mutant = y.mutant) ∧
    ∀ directory ending : String,
      CommandLine.inDirectory directory (x.id ++ ending) =
        CommandLine.inDirectory directory (y.id ++ ending) →
      x.operator = y.operator ∧ x.mutant = y.mutant := by
  obtain ⟨u, hu, rfl⟩ := List.mem_map.mp hx
  obtain ⟨v, hv, rfl⟩ := List.mem_map.mp hy
  obtain ⟨m, hu⟩ := Component.madeBy_of_mem_mutations hu
  obtain ⟨m', hv⟩ := Component.madeBy_of_mem_mutations hv
  have hid : u.id = v.id → u.operator = v.operator ∧ u.edit.apply c = v.edit.apply c := by
    intro h
    obtain ⟨hoperator, hedit⟩ := hu.of_id_eq hv h
    exact ⟨hoperator, by rw [hedit]⟩
  refine ⟨hid, fun directory ending hpath => hid ?_⟩
  exact (String.append_left_inj ending).mp (CommandLine.inDirectory_inj hpath)

/-- A lamp that declares an input twice has two mutants of one id, which are the same. -/
theorem testCase_of_tap :
    let lamp := { Lamp.component with
      declarations := { inputs := ["press", "tap", "tap"], outputs := ["off"] } }
    ∃ x y, (lamp.testCases [.changeActionInputs])[0]? = some x ∧
      (lamp.testCases [.changeActionInputs])[1]? = some y ∧
      x.id = "change_action_inputs_0_tap" ∧ x.id = y.id ∧ x.mutant = y.mutant := by
  intro lamp
  have hsame := testCase_of_id lamp [.changeActionInputs]
    (List.mem_of_getElem? (i := 0) rfl) (List.mem_of_getElem? (i := 1) rfl)
  exact ⟨_, _, rfl, rfl, rfl, rfl, (hsame.1 rfl).2⟩

end TimedMutation
