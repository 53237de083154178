import Mathlib.Data.List.GetD
import Mathlib.Data.List.Nodup
import Mathlib.Tactic.SplitIfs
import MipsLowering.Proofs.Emission

/-! # Registers that are handed out

What accepted settings say about the pool, and what follows for the registers of names: every name is
bound to a register of the pool, which has no other part (`Config.isSpecial_of_mem_pool`), and as long
as there are as many registers as names, different names are bound to different registers
(`RegisterFile.Sound.apart`). -/

namespace MipsLowering

theorem Text.mem_distinct {s : String} {ss : List String} : s ∈ distinct ss ↔ s ∈ ss := by
  have grown : ∀ seen : List String,
      s ∈ ss.foldl (fun seen t => if seen.contains t then seen else seen ++ [t]) seen ↔
        s ∈ seen ∨ s ∈ ss := by
    induction ss with
    | nil => simp
    | cons t rest ih =>
      intro seen
      rw [List.foldl_cons, ih]
      by_cases known : t ∈ seen
      · simp only [List.contains_eq_mem, known, decide_true, if_true, List.mem_cons]
        constructor
        · exact Or.imp_right .inr
        · rintro (early | rfl | late)
          · exact .inl early
          · exact .inl known
          · exact .inr late
      · simp [known, or_assoc]
  rw [distinct, grown]
  simp

namespace Config

variable (config : Config)

theorem pool_ne_nil : config.pool ≠ [] := by
  have accepted := config.accepted
  intro empty
  simp [Settings.fault?, empty] at accepted

/-- A register of the pool has no other part. -/
theorem isSpecial_of_mem_pool {r : Register} (pooled : r ∈ config.pool) :
    config.isSpecial r = false := by
  have accepted := config.accepted
  have noClash : config.clashes = [] := by
    unfold Settings.fault? at accepted
    split_ifs at accepted with _ _ _ clash _
    simpa using clash
  by_contra special
  have clash : r ∈ config.clashes := by
    rw [Settings.clashes, Text.mem_sorted, Text.mem_distinct, List.mem_filter]
    exact ⟨pooled, by simpa using special⟩
  rw [noClash] at clash
  cases clash

theorem two_le_length_scratch : 2 ≤ config.scratch.length := by
  have accepted := config.accepted
  unfold Settings.fault? at accepted
  split_ifs at accepted with _ few
  omega

theorem scratch0_mem : config.scratch0 ∈ config.scratch := by
  have enough := config.two_le_length_scratch
  rw [scratch0, List.getD_eq_getElem _ _ (by omega)]
  exact List.getElem_mem _

theorem scratch1_mem : config.scratch1 ∈ config.scratch := by
  have enough := config.two_le_length_scratch
  rw [scratch1, List.getD_eq_getElem _ _ (by omega)]
  exact List.getElem_mem _

theorem two_le_length_address : 2 ≤ config.address.length := by
  have accepted := config.accepted
  unfold Settings.fault? at accepted
  split_ifs at accepted with _ _ few
  omega

theorem addressRegister_mem : config.addressRegister ∈ config.address := by
  have enough := config.two_le_length_address
  rw [addressRegister, List.getD_eq_getElem _ _ (by omega)]
  exact List.getElem_mem _

theorem indexRegister_mem : config.indexRegister ∈ config.address := by
  have enough := config.two_le_length_address
  rw [indexRegister, List.getD_eq_getElem _ _ (by omega)]
  exact List.getElem_mem _

theorem wordSize_pos : 0 < config.wordSize := by
  have accepted := config.accepted
  unfold Settings.fault? at accepted
  split_ifs at accepted with _ _ _ _ small
  omega

theorem not_mem_pool_of_address {r : Register} (address : r ∈ config.address) : r ∉ config.pool := by
  intro pooled
  have ordinary := config.isSpecial_of_mem_pool pooled
  simp [Settings.isSpecial, address] at ordinary

theorem not_mem_pool_of_scratch {r : Register} (literal : r ∈ config.scratch) : r ∉ config.pool := by
  intro pooled
  have ordinary := config.isSpecial_of_mem_pool pooled
  simp [Settings.isSpecial, literal] at ordinary

theorem not_mem_pool_of_reserved {r : Register} (reserved : r ∈ reservedRegisters) :
    r ∉ config.pool := by
  intro pooled
  have ordinary := config.isSpecial_of_mem_pool pooled
  simp [Settings.isSpecial, reserved] at ordinary

end Config

namespace RegisterFile

variable {f : RegisterFile} {name : String} {r : Register}

/-- The register with a number, as the pool lists it. -/
theorem getElem?_pool {pool : List Register} (nonempty : pool ≠ []) (i : Nat) :
    pool[min i (pool.length - 1)]? = some (registerAt pool i) := by
  have positive : 0 < pool.length := List.length_pos_iff.mpr nonempty
  have inside : min i (pool.length - 1) < pool.length := by omega
  rw [registerAt, List.getD_eq_getElem _ _ inside, List.getElem?_eq_getElem inside]

namespace Sound

variable (sound : f.Sound)

include sound

theorem getElem?_bindings (i : Nat) :
    f.bindings[i]? = f.names[i]?.map fun name => (name, registerAt f.pool i) := by
  conv_lhs => rw [sound.determined]
  simp [ofNames, List.getElem?_mapIdx]

/-- The register of a name is the one with the number of the name. -/
theorem exists_of_lookup? (bound : f.lookup? name = some r) :
    ∃ i, f.names[i]? = some name ∧ r = registerAt f.pool i := by
  obtain ⟨before, later, parts, -⟩ := List.lookup_eq_some_iff.mp bound
  have found : f.bindings[before.length]? = some (name, r) := by
    rw [parts]
    simp
  rw [sound.getElem?_bindings] at found
  obtain ⟨_, listed, same⟩ := Option.map_eq_some_iff.mp found
  cases same
  exact ⟨before.length, listed, rfl⟩

theorem lookup?_of_getElem? {i : Nat} (listed : f.names[i]? = some name) :
    f.lookup? name = some (registerAt f.pool i) := by
  obtain ⟨r, bound⟩ := Option.isSome_iff_exists.mp (lookup?_isSome.mpr (List.mem_of_getElem? listed))
  obtain ⟨j, listed', rfl⟩ := sound.exists_of_lookup? bound
  have inside : i < f.names.length := (List.getElem?_eq_some_iff.mp listed).1
  obtain rfl : i = j := (List.getElem?_inj inside sound.distinct).mp (listed.trans listed'.symm)
  exact bound

theorem mem_pool_of_lookup? (nonempty : f.pool ≠ []) (bound : f.lookup? name = some r) : r ∈ f.pool := by
  obtain ⟨i, _, rfl⟩ := sound.exists_of_lookup? bound
  exact List.mem_of_getElem? (getElem?_pool nonempty i)

end Sound

/-- Different names are bound to different registers. -/
def Apart (f : RegisterFile) : Prop :=
  ∀ name other r, f.lookup? name = some r → f.lookup? other = some r → name = other

/-- Names that have taken the first registers of the pool are bound to different ones, if these are different. -/
theorem Sound.apart_of_take (sound : f.Sound) {limit : Nat} (few : f.names.length ≤ limit)
    (enough : limit ≤ f.pool.length) (distinct : (f.pool.take limit).Nodup) : f.Apart := by
  intro name other r first second
  obtain ⟨i, atFirst, rfl⟩ := sound.exists_of_lookup? first
  obtain ⟨j, atSecond, same⟩ := sound.exists_of_lookup? second
  have low : i < f.names.length := (List.getElem?_eq_some_iff.mp atFirst).1
  have low' : j < f.names.length := (List.getElem?_eq_some_iff.mp atSecond).1
  have taken : ∀ k < f.names.length, (f.pool.take limit)[k]? = some (registerAt f.pool k) := by
    intro k below
    have nonempty : f.pool ≠ [] := List.ne_nil_of_length_pos (by omega)
    rw [List.getElem?_take_of_lt (by omega), ← getElem?_pool nonempty, Nat.min_eq_left (by omega)]
  have inside : i < (f.pool.take limit).length := by
    rw [List.length_take]
    omega
  obtain rfl : i = j := (List.getElem?_inj inside distinct).mp (by rw [taken i low, taken j low', same])
  exact Option.some.inj (atFirst.symm.trans atSecond)

theorem Sound.apart (sound : f.Sound) (enough : f.names.length ≤ f.pool.length) (distinct : f.pool.Nodup) :
    f.Apart :=
  sound.apart_of_take enough (Nat.le_refl _) (by rwa [List.take_length])

/-- A register file that hands out the registers that the settings have for names. -/
structure DrawsOn (f : RegisterFile) (config : Config) : Prop where
  pool : f.pool = config.pool
  sound : f.Sound

theorem drawsOn_ofRegisters (config : Config) : (ofRegisters config.pool config.scratch).DrawsOn config :=
  ⟨rfl, sound_ofRegisters _ _⟩

theorem DrawsOn.mem_pool {config : Config} (draws : f.DrawsOn config) (bound : f.lookup? name = some r) :
    r ∈ config.pool :=
  draws.pool ▸ draws.sound.mem_pool_of_lookup? (draws.pool ▸ config.pool_ne_nil) bound

theorem Extends.drawsOn {g : RegisterFile} {config : Config} (later : f.Extends g) (draws : f.DrawsOn config) :
    g.DrawsOn config :=
  ⟨later.pool.trans draws.pool, later.sound draws.sound⟩

end RegisterFile

end MipsLowering
