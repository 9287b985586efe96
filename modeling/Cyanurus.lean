import Cyanurus.Mem.Lists
import Cyanurus.Proc.Cloexec
import Cyanurus.Proc.PipeWake
import Cyanurus.Proc.Fairness
import Cyanurus.Proc.Tty
import Cyanurus.Proc.SignalCount
import Cyanurus.Fs.Leak
import Cyanurus.Fs.Mirror
import Cyanurus.Fs.Block
import Cyanurus.Proc.Kinship
import Cyanurus.Fs.Rounds
import Cyanurus.Fs.Overwrite
import Cyanurus.Fs.Libgen
import Cyanurus.Fs.Effects
import Cyanurus.Proc.Frames
import Cyanurus.Proc.Args
import Cyanurus.Proc.SignalTable
import Cyanurus.Fs.Names
import Cyanurus.Proc.Elf
import Cyanurus.Proc.Vm
import Cyanurus.Proc.PipeStream
