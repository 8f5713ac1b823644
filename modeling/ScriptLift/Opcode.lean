/-! Instruction set: mnemonics and their 16-bit codes.

The trailing letters of a mnemonic name its operand types; the code holds the operation in its low
byte and the operand types in its high byte. -/
namespace ScriptLift

inductive Opcode where
  | nop | cpdownsp | rsaddi | rsaddf | rsadds | rsaddo | rsaddeff | rsaddevt | rsaddloc
  | rsaddtal | cptopsp | consti | constf | consts | consto | action | logandii | logorii
  | incorii | excorii | boolandii | equalii | equalff | equalss | equaloo | equaltt
  | equaleffeff | equalevtevt | equallocloc | equaltaltal | nequalii | nequalff | nequalss
  | nequaloo | nequaltt | nequaleffeff | nequalevtevt | nequallocloc | nequaltaltal | geqii
  | geqff | gtii | gtff | ltii | ltff | leqii | leqff | shleftii | shrightii | ushrightii
  | addii | addif | addfi | addff | addss | addvv | subii | subif | subfi | subff | subvv
  | mulii | mulif | mulfi | mulff | mulvf | mulfv | divii | divif | divfi | divff | divvf
  | divfv | modii | negi | negf | compi | movsp | jmp | jsr | jz | retn | destruct | noti
  | decisp | incisp | jnz | cpdownbp | cptopbp | decibp | incibp | savebp | restorebp
  | storeState | nop2
  deriving DecidableEq, Repr

def Opcode.code : Opcode → UInt16
  | .nop => 0x0c00
  | .cpdownsp => 0x0101
  | .rsaddi => 0x0302
  | .rsaddf => 0x0402
  | .rsadds => 0x0502
  | .rsaddo => 0x0602
  | .rsaddeff => 0x1002
  | .rsaddevt => 0x1102
  | .rsaddloc => 0x1202
  | .rsaddtal => 0x1302
  | .cptopsp => 0x0103
  | .consti => 0x0304
  | .constf => 0x0404
  | .consts => 0x0504
  | .consto => 0x0604
  | .action => 0x0005
  | .logandii => 0x2006
  | .logorii => 0x2007
  | .incorii => 0x2008
  | .excorii => 0x2009
  | .boolandii => 0x200a
  | .equalii => 0x200b
  | .equalff => 0x210b
  | .equalss => 0x230b
  | .equaloo => 0x220b
  | .equaltt => 0x240b
  | .equaleffeff => 0x300b
  | .equalevtevt => 0x310b
  | .equallocloc => 0x320b
  | .equaltaltal => 0x330b
  | .nequalii => 0x200c
  | .nequalff => 0x210c
  | .nequalss => 0x230c
  | .nequaloo => 0x220c
  | .nequaltt => 0x240c
  | .nequaleffeff => 0x300c
  | .nequalevtevt => 0x310c
  | .nequallocloc => 0x320c
  | .nequaltaltal => 0x330c
  | .geqii => 0x200d
  | .geqff => 0x210d
  | .gtii => 0x200e
  | .gtff => 0x210e
  | .ltii => 0x200f
  | .ltff => 0x210f
  | .leqii => 0x2010
  | .leqff => 0x2110
  | .shleftii => 0x2011
  | .shrightii => 0x2012
  | .ushrightii => 0x2013
  | .addii => 0x2014
  | .addif => 0x2514
  | .addfi => 0x2614
  | .addff => 0x2114
  | .addss => 0x2314
  | .addvv => 0x3a14
  | .subii => 0x2015
  | .subif => 0x2515
  | .subfi => 0x2615
  | .subff => 0x2115
  | .subvv => 0x3a15
  | .mulii => 0x2016
  | .mulif => 0x2516
  | .mulfi => 0x2616
  | .mulff => 0x2116
  | .mulvf => 0x3b16
  | .mulfv => 0x3c16
  | .divii => 0x2017
  | .divif => 0x2517
  | .divfi => 0x2617
  | .divff => 0x2117
  | .divvf => 0x3b17
  | .divfv => 0x3c17
  | .modii => 0x2018
  | .negi => 0x0319
  | .negf => 0x0419
  | .compi => 0x031a
  | .movsp => 0x001b
  | .jmp => 0x001d
  | .jsr => 0x001e
  | .jz => 0x001f
  | .retn => 0x0020
  | .destruct => 0x0121
  | .noti => 0x0322
  | .decisp => 0x0323
  | .incisp => 0x0324
  | .jnz => 0x0025
  | .cpdownbp => 0x0126
  | .cptopbp => 0x0127
  | .decibp => 0x0328
  | .incibp => 0x0329
  | .savebp => 0x002a
  | .restorebp => 0x002b
  | .storeState => 0x102c
  | .nop2 => 0x002d

def Opcode.mnemonic : Opcode → String
  | .nop => "NOP"
  | .cpdownsp => "CPDOWNSP"
  | .rsaddi => "RSADDI"
  | .rsaddf => "RSADDF"
  | .rsadds => "RSADDS"
  | .rsaddo => "RSADDO"
  | .rsaddeff => "RSADDEFF"
  | .rsaddevt => "RSADDEVT"
  | .rsaddloc => "RSADDLOC"
  | .rsaddtal => "RSADDTAL"
  | .cptopsp => "CPTOPSP"
  | .consti => "CONSTI"
  | .constf => "CONSTF"
  | .consts => "CONSTS"
  | .consto => "CONSTO"
  | .action => "ACTION"
  | .logandii => "LOGANDII"
  | .logorii => "LOGORII"
  | .incorii => "INCORII"
  | .excorii => "EXCORII"
  | .boolandii => "BOOLANDII"
  | .equalii => "EQUALII"
  | .equalff => "EQUALFF"
  | .equalss => "EQUALSS"
  | .equaloo => "EQUALOO"
  | .equaltt => "EQUALTT"
  | .equaleffeff => "EQUALEFFEFF"
  | .equalevtevt => "EQUALEVTEVT"
  | .equallocloc => "EQUALLOCLOC"
  | .equaltaltal => "EQUALTALTAL"
  | .nequalii => "NEQUALII"
  | .nequalff => "NEQUALFF"
  | .nequalss => "NEQUALSS"
  | .nequaloo => "NEQUALOO"
  | .nequaltt => "NEQUALTT"
  | .nequaleffeff => "NEQUALEFFEFF"
  | .nequalevtevt => "NEQUALEVTEVT"
  | .nequallocloc => "NEQUALLOCLOC"
  | .nequaltaltal => "NEQUALTALTAL"
  | .geqii => "GEQII"
  | .geqff => "GEQFF"
  | .gtii => "GTII"
  | .gtff => "GTFF"
  | .ltii => "LTII"
  | .ltff => "LTFF"
  | .leqii => "LEQII"
  | .leqff => "LEQFF"
  | .shleftii => "SHLEFTII"
  | .shrightii => "SHRIGHTII"
  | .ushrightii => "USHRIGHTII"
  | .addii => "ADDII"
  | .addif => "ADDIF"
  | .addfi => "ADDFI"
  | .addff => "ADDFF"
  | .addss => "ADDSS"
  | .addvv => "ADDVV"
  | .subii => "SUBII"
  | .subif => "SUBIF"
  | .subfi => "SUBFI"
  | .subff => "SUBFF"
  | .subvv => "SUBVV"
  | .mulii => "MULII"
  | .mulif => "MULIF"
  | .mulfi => "MULFI"
  | .mulff => "MULFF"
  | .mulvf => "MULVF"
  | .mulfv => "MULFV"
  | .divii => "DIVII"
  | .divif => "DIVIF"
  | .divfi => "DIVFI"
  | .divff => "DIVFF"
  | .divvf => "DIVVF"
  | .divfv => "DIVFV"
  | .modii => "MODII"
  | .negi => "NEGI"
  | .negf => "NEGF"
  | .compi => "COMPI"
  | .movsp => "MOVSP"
  | .jmp => "JMP"
  | .jsr => "JSR"
  | .jz => "JZ"
  | .retn => "RETN"
  | .destruct => "DESTRUCT"
  | .noti => "NOTI"
  | .decisp => "DECISP"
  | .incisp => "INCISP"
  | .jnz => "JNZ"
  | .cpdownbp => "CPDOWNBP"
  | .cptopbp => "CPTOPBP"
  | .decibp => "DECIBP"
  | .incibp => "INCIBP"
  | .savebp => "SAVEBP"
  | .restorebp => "RESTOREBP"
  | .storeState => "STORE_STATE"
  | .nop2 => "NOP2"

def Opcode.all : List Opcode := [
  .nop, .cpdownsp, .rsaddi, .rsaddf, .rsadds, .rsaddo, .rsaddeff, .rsaddevt, .rsaddloc, .rsaddtal,
  .cptopsp, .consti, .constf, .consts, .consto, .action, .logandii, .logorii, .incorii, .excorii,
  .boolandii, .equalii, .equalff, .equalss, .equaloo, .equaltt, .equaleffeff, .equalevtevt,
  .equallocloc, .equaltaltal, .nequalii, .nequalff, .nequalss, .nequaloo, .nequaltt,
  .nequaleffeff, .nequalevtevt, .nequallocloc, .nequaltaltal, .geqii, .geqff, .gtii, .gtff, .ltii,
  .ltff, .leqii, .leqff, .shleftii, .shrightii, .ushrightii, .addii, .addif, .addfi, .addff,
  .addss, .addvv, .subii, .subif, .subfi, .subff, .subvv, .mulii, .mulif, .mulfi, .mulff, .mulvf,
  .mulfv, .divii, .divif, .divfi, .divff, .divvf, .divfv, .modii, .negi, .negf, .compi, .movsp,
  .jmp, .jsr, .jz, .retn, .destruct, .noti, .decisp, .incisp, .jnz, .cpdownbp, .cptopbp, .decibp,
  .incibp, .savebp, .restorebp, .storeState, .nop2
]

def Opcode.ofCode? (code : UInt16) : Option Opcode := all.find? (·.code = code)

def Opcode.ofMnemonic? (mnemonic : String) : Option Opcode := all.find? (·.mnemonic = mnemonic)

/-- The operation, shared by all its operand types. -/
def Opcode.lowByte (op : Opcode) : Nat := op.code.toNat % 256

/-- The operand types. -/
def Opcode.highByte (op : Opcode) : Nat := op.code.toNat / 256

def Opcode.isJump : Opcode → Bool
  | .jmp | .jsr | .jz | .jnz => true
  | _ => false

end ScriptLift
