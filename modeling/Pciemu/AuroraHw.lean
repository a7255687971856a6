import Mathlib.Tactic

namespace Pciemu.AuroraHw

def regbarRegCnt : ℕ := 4
def reg0 : UInt64 := 0x00
def reg1 : UInt64 := 0x08
def reg2 : UInt64 := 0x10
def reg3 : UInt64 := 0x18

def regIrq0Raise : UInt64 := 0x20
def regIrq0Lower : UInt64 := 0x28

def regDmaCfgTxdescSrc : UInt64 := 0x30
def regDmaCfgTxdescDst : UInt64 := 0x38
def regDmaCfgTxdescLen : UInt64 := 0x40
def regDmaCfgCmd : UInt64 := 0x48
def regDmaDoorbellRing : UInt64 := 0x50

def memBar : ℕ := 0
def intBar : ℕ := 2
def regBar : ℕ := 3

def msixTableOffset : UInt64 := 0x1000
def msixPbaOffset : UInt64 := 0x3000

def intBarSize : UInt64 := 0x200000
def regBarSize : UInt64 := 0x8000000
def regbarStart : UInt64 := reg0
def regbarEnd : UInt64 := regBarSize

def dmaAddrCapability : ℕ := 32
def dmaAreaStart : UInt64 := 0x10000
def dmaAreaSize : UInt64 := 0x1000

def dmaDirectionToDevice : UInt64 := 0x1
def dmaDirectionFromDevice : UInt64 := 0x2

def irqCnt : ℕ := 1
def irqVectorStart : ℕ := 0
def irqVectorEnd : ℕ := 0
def irqIntx : ℕ := 0
def irqMsixCnt : ℕ := 128
def irqMsixVectorStart : ℕ := 0
def irqMsixVectorEnd : ℕ := 127

def irqDmaEndedVector : ℕ := 0
def irqDmaAckAddr : UInt64 := regIrq0Lower

end Pciemu.AuroraHw
